-- The addresses of sockets: the objects of the system, and the class `socketaddr` that
-- holds one of any family and knows how long it is.
import Rmrf.TcpClient

namespace rmrf.net

/-! ## The objects of the system -/

abbrev Family := Int

def AF_UNSPEC : Family := 0
def AF_UNIX : Family := 1
def AF_INET : Family := 2
def AF_INET6 : Family := 10
def AF_NETLINK : Family := 16

/-- An object that a `sockaddr *` points to: its family, which takes two bytes, and the
bytes behind it. -/
structure SockAddr where
  sa_family : Family
  sa_data : List UInt8
deriving DecidableEq, Repr

namespace SockAddr

/-- `ntohs(sin_port)` and `ntohs(sin6_port)`. Both ports stand behind the family, with
the high byte first. -/
def port (a : SockAddr) : Nat := (a.sa_data.getD 0 0).toNat * 256 + (a.sa_data.getD 1 0).toNat

/-- `sin_addr` -/
def sin_addr (a : SockAddr) : List UInt8 := (a.sa_data.drop 2).take 4

/-- What is read of an object of which `n` bytes are given. -/
def bytes (a : SockAddr) (n : Nat) : SockAddr := ⟨a.sa_family, a.sa_data.take (n - 2)⟩

/-- `memcpy(dest, src, n)`, for an `n` that takes in the family. -/
def memcpy (dest src : SockAddr) (n : Nat) : SockAddr :=
  ⟨src.sa_family, src.sa_data.take (n - 2) ++ dest.sa_data.drop (n - 2)⟩

/-- An object that was copied whole is read back. -/
theorem bytes_memcpy {a dest : SockAddr} {n : Nat} (h : a.sa_data.length = n - 2) :
    (dest.memcpy a n).bytes n = a := by
  unfold memcpy bytes
  rw [← h, List.take_length, List.take_left]

end SockAddr

/-- `htons(port)` as it stands in memory. -/
def htons (port : Nat) : List UInt8 := [UInt8.ofNat (port / 256), UInt8.ofNat (port % 256)]

/-- The types that `family_map` has. -/
inductive AddrType
  | sockaddr_in
  | sockaddr_in6
  | sockaddr_un
  | sockaddr_nl
deriving DecidableEq, Repr

/-- `family_map<T>::sa_family` -/
def AddrType.sa_family : AddrType → Family
  | .sockaddr_in => AF_INET
  | .sockaddr_in6 => AF_INET6
  | .sockaddr_un => AF_UNIX
  | .sockaddr_nl => AF_NETLINK

/-- `sizeof(T)` -/
def AddrType.sizeof : AddrType → Nat
  | .sockaddr_in => 16
  | .sockaddr_in6 => 28
  | .sockaddr_un => 110
  | .sockaddr_nl => 12

/-- A `sockaddr_storage` with all bytes zero. -/
def sockaddr_storage : SockAddr := ⟨0, List.replicate 126 0⟩

/-! ## The class -/

structure SocketAddr where
  addr : SockAddr
  len : Nat
deriving DecidableEq, Repr

namespace SocketAddr

def family (s : SocketAddr) : Family := s.addr.sa_family

def ptr (s : SocketAddr) : SockAddr := s.addr

def size (s : SocketAddr) : Nat := s.len

/-- `socketaddr(T *other)` -/
def of_addr (T : AddrType) (other : SockAddr) : Except Exn SocketAddr :=
  if other.sa_family ≠ T.sa_family then
    .error (.netio_exception "Address family mismatch in sockaddr structure.")
  else .ok ⟨sockaddr_storage.memcpy other T.sizeof, T.sizeof⟩

/-- `operator=(const T *rhs)` -/
def assign (s : SocketAddr) (T : AddrType) (rhs : SockAddr) : Except Exn SocketAddr :=
  if rhs.sa_family ≠ T.sa_family then
    .error (.netio_exception "Address family mismatch in sockaddr structure.")
  else .ok ⟨s.addr.memcpy rhs T.sizeof, T.sizeof⟩

/-- `operator=(sockaddr *rhs)` -/
def assign_any (s : SocketAddr) (rhs : SockAddr) : Except Exn SocketAddr :=
  if rhs.sa_family = AF_INET then s.assign .sockaddr_in rhs
  else if rhs.sa_family = AF_INET6 then s.assign .sockaddr_in6 rhs
  else if rhs.sa_family = AF_UNIX then s.assign .sockaddr_un rhs
  else if rhs.sa_family = AF_NETLINK then s.assign .sockaddr_nl rhs
  else .error (.netio_exception "Trying to assign unknown address family")

/-- `operator T*()` -/
def cast (s : SocketAddr) (T : AddrType) : Except Exn SockAddr :=
  if s.addr.sa_family ≠ T.sa_family then
    .error (.netio_exception "Cannot convert address family of stored sockaddr structure.")
  else .ok s.addr

/-- An address is taken up when it has the family of its type. -/
theorem of_addr_of_family {T : AddrType} {other : SockAddr} (h : other.sa_family = T.sa_family) :
    of_addr T other = .ok ⟨sockaddr_storage.memcpy other T.sizeof, T.sizeof⟩ :=
  if_neg (not_not_intro h)

theorem cast_of_family {s : SocketAddr} {T : AddrType} (h : s.addr.sa_family = T.sa_family) :
    s.cast T = .ok s.addr :=
  if_neg (not_not_intro h)

/-- An address that is assigned to itself stays as it is, and gets the length of its
family. -/
theorem assign_self {s : SocketAddr} {T : AddrType} (h : s.addr.sa_family = T.sa_family) :
    s.assign T s.ptr = .ok ⟨s.addr, T.sizeof⟩ := by
  unfold assign ptr
  rw [if_neg (not_not_intro h), SockAddr.memcpy, List.take_append_drop]

theorem assign_any_self {s : SocketAddr} {T : AddrType} (h : s.addr.sa_family = T.sa_family) :
    s.assign_any s.ptr = .ok ⟨s.addr, T.sizeof⟩ := by
  have hself := assign_self h
  have hptr : s.ptr.sa_family = T.sa_family := h
  unfold assign_any
  rw [hptr]
  cases T <;> exact hself

/-- A family that is none of the four is not taken. -/
theorem assign_any_unknown {s : SocketAddr} (h : ∀ T : AddrType, s.addr.sa_family ≠ T.sa_family) :
    s.assign_any s.ptr =
      .error (.netio_exception "Trying to assign unknown address family") := by
  have hin : s.ptr.sa_family ≠ AF_INET := h .sockaddr_in
  have hin6 : s.ptr.sa_family ≠ AF_INET6 := h .sockaddr_in6
  have hun : s.ptr.sa_family ≠ AF_UNIX := h .sockaddr_un
  have hnl : s.ptr.sa_family ≠ AF_NETLINK := h .sockaddr_nl
  unfold assign_any
  rw [if_neg hin, if_neg hin6, if_neg hun, if_neg hnl]

end SocketAddr

end rmrf.net
