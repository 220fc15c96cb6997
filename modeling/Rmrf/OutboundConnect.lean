-- The constructors of a client that connects to a peer: the results of the resolver
-- become a list of candidates, and the first of them that connects gives the socket.
import Rmrf.SocketAddress
import Rmrf.Stateful

open stateful

namespace rmrf.net

/-! ## The system -/

/-- A result of `getaddrinfo`. The address that it points to is of its family, and as long
as one of that family. -/
structure AddrInfo where
  ai_family : Family
  ai_addr : SockAddr
  agrees : ai_addr.sa_family = ai_family
  whole : ∀ T : AddrType, T.sa_family = ai_family → ai_addr.sa_data.length = T.sizeof - 2
deriving DecidableEq, Repr

/-- What the system answers to a constructor. The calls for a candidate are told by the pass
of the loop that they are made in. -/
structure System where
  /-- The `socket` call for the family that is asked for. -/
  socket : Family → Int
  getaddrinfo : String → String → Family → Except Int (List AddrInfo)
  gai_strerror : Int → String
  candidate_socket : Nat → Family → Int
  connect : Nat → SockAddr → Int
  /-- The flags of a descriptor. -/
  fcntl_getfl : Int → BitVec 32
  getsockname : Int
  /-- The address that `getsockname` gives when it succeeds. -/
  local_address : SockAddr
  /-- What stands in a `socketaddr` that nothing has been written to. -/
  uninitialised : SocketAddr

/-- A call of the system. With a `socket` call stands what it has given, and with `connect`
what the system reads of the address. -/
inductive SysCall
  | socket (family : Family) (fd : Int)
  | getaddrinfo (node service : String) (family : Family)
  | candidate_socket (family : Family) (fd : Int)
  | connect (fd : Int) (address : SockAddr)
  | fcntl_getfl (fd : Int)
  | fcntl_setfl (fd : Int) (flags : BitVec 32)
  | getsockname (fd : Int)
  | close (fd : Int)
deriving DecidableEq, Repr

def O_NONBLOCK : BitVec 32 := 0x800

/-- The call tries a candidate. -/
def SysCall.tries : SysCall → Bool
  | .candidate_socket _ _ => true
  | .connect _ _ => true
  | _ => false

/-- The address that the call connects to. -/
def SysCall.address : SysCall → Option SockAddr
  | .connect _ a => some a
  | _ => none

/-- A client that is being made, and the calls of the system so far. -/
structure Outbound where
  client : TcpClient
  calls : List SysCall
deriving DecidableEq, Repr

abbrev Constructor := EStateM Exn Outbound

/-- What a constructor ends with: a client, or an exception. -/
abbrev Construction := EStateM.Result Exn Outbound Unit

open MonadExcept (ofExcept)

namespace Outbound

/-! ## The constructors -/

def call (c : SysCall) : Constructor Unit := modify fun o => { o with calls := o.calls ++ [c] }

/-- The members as the initializer list leaves them. -/
def members (peer_address : String) : Outbound where
  client :=
    { destructor_cb := false, peer_address, port := 0, net_socket := -1, io := ⟨-1, 0, false⟩,
      write_queue := ⟨[]⟩ }
  calls := []

/-- `net_socket = auto_fd(fd)`, and with -1 also `~auto_fd` of `net_socket`. -/
def assign_net_socket (fd : Int) : Constructor Unit := do
  let old := (← get).client.net_socket
  if old ≥ 0 then
    call (.close old)
  modify fun o => { o with client.net_socket := fd }

def set_port (port : Nat) : Constructor Unit := modify fun o => { o with client.port := port }

/-- The loop over the results. -/
def add_candidates : List AddrInfo → List SocketAddr → Except Exn (List SocketAddr)
  | [], connection_candidates => .ok connection_candidates
  | p :: rest, connection_candidates =>
    if p.ai_family = AF_INET then do
      let sa ← SocketAddr.of_addr .sockaddr_in p.ai_addr
      add_candidates rest (connection_candidates ++ [sa])
    else if p.ai_family = AF_INET6 then do
      let sa ← SocketAddr.of_addr .sockaddr_in6 p.ai_addr
      add_candidates rest (sa :: connection_candidates)
    else add_candidates rest connection_candidates

/-- `fcntl(fd, F_SETFL, fcntl(fd, F_GETFL, 0) | O_NONBLOCK)` -/
def set_nonblocking (sys : System) : Constructor Unit := do
  let fd := (← get).client.net_socket
  call (.fcntl_getfl fd)
  call (.fcntl_setfl fd (sys.fcntl_getfl fd ||| O_NONBLOCK))

/-- `getsockname(fd, sa_local.ptr(), &sa_local_len)` -/
def getsockname (sys : System) : SocketAddr :=
  if sys.getsockname = 0 then { sys.uninitialised with addr := sys.local_address }
  else sys.uninitialised

/-- The statements behind `getsockname`. It returns 0 when it succeeds, and then they
are passed over. -/
def read_local_port (sys : System) : Constructor Unit := do
  call (.getsockname (← get).client.net_socket)
  if sys.getsockname ≠ 0 then
    let sa_local ← ofExcept ((getsockname sys).assign_any (getsockname sys).ptr)
    if sa_local.family = AF_INET then
      set_port (← ofExcept (sa_local.cast .sockaddr_in)).port
    else if sa_local.family = AF_INET6 then
      set_port (← ofExcept (sa_local.cast .sockaddr_in6)).port
    else
      throw (.netio_exception "Invalid/unexpected local socket address type")

/-- The loop over the candidates, at pass `n`. A descriptor that is not kept is closed at
the end of its pass. -/
def connect_loop (sys : System) : Nat → List SocketAddr → Constructor Unit
  | _, [] => throw (.netio_exception "Unable to find suitable connection candidate.")
  | n, socket_identifier :: connection_candidates => do
    let socket_candidate := sys.candidate_socket n socket_identifier.family
    call (.candidate_socket socket_identifier.family socket_candidate)
    if socket_candidate ≥ 0 then
      let address := socket_identifier.ptr.bytes socket_identifier.size
      call (.connect socket_candidate address)
      if sys.connect n address = 0 then
        assign_net_socket socket_candidate
        set_nonblocking sys
        read_local_port sys
      else
        call (.close socket_candidate)
        connect_loop sys (n + 1) connection_candidates
    else
      connect_loop sys (n + 1) connection_candidates

/-- The resolver's results, and the candidates in them. -/
def resolve (sys : System) (peer_address service_or_port : String) (ip_addr_family : Family) :
    Constructor (List SocketAddr) := do
  call (.getaddrinfo peer_address service_or_port ip_addr_family)
  match sys.getaddrinfo peer_address service_or_port ip_addr_family with
  | .error status =>
    throw (.netio_exception ("Failed to resolve address '" ++ peer_address ++ "' with service '"
      ++ service_or_port ++ "': " ++ sys.gai_strerror status))
  | .ok servinfo => ofExcept (add_candidates servinfo [])

def io_start : Constructor Unit :=
  modify fun o => { o with client.io := ⟨o.client.net_socket, ev.READ, true⟩ }

/-- The test of the family, and the socket that is there before any candidate. -/
def request_socket (sys : System) (ip_addr_family : Family) : Constructor Unit := do
  if ¬ (ip_addr_family = AF_INET ∨ ip_addr_family = AF_INET6) then
    throw (.netio_exception "Invalid IP address family.")
  call (.socket ip_addr_family (sys.socket ip_addr_family))
  assign_net_socket (sys.socket ip_addr_family)
  if ¬ sys.socket ip_addr_family ≥ 0 then
    throw (.netio_exception "Failed to request socket fd from kernel.")

/-- The body of `tcp_client(peer_address_, service_or_port, ip_addr_family)`. -/
def body (sys : System) (peer_address service_or_port : String) (ip_addr_family : Family) :
    Constructor Unit := do
  request_socket sys ip_addr_family
  let connection_candidates ← resolve sys peer_address service_or_port ip_addr_family
  connect_loop sys 0 connection_candidates
  io_start

/-- A constructor that throws destroys the members. -/
def unwind (h : Constructor Unit) : Constructor Unit :=
  tryCatch h fun e => do
    assign_net_socket (-1)
    throw e

def ends : Construction → Outbound
  | .ok _ o => o
  | .error _ o => o

def of_family (sys : System) (peer_address service_or_port : String) (ip_addr_family : Family) :
    Construction :=
  unwind (body sys peer_address service_or_port ip_addr_family) (members peer_address)

def of_service (sys : System) (peer_address service_or_port : String) : Construction :=
  of_family sys peer_address service_or_port AF_UNSPEC

def of_port (sys : System) (peer_address : String) (port : UInt16) : Construction :=
  of_service sys peer_address (toString port.toNat)

/-! ## The list of candidates -/

/-- The addresses that the results of a family point to. -/
def addresses (family : Family) (results : List AddrInfo) : List SockAddr :=
  (results.filter (·.ai_family = family)).map (·.ai_addr)

theorem addresses_cons_pos {family : Family} {p : AddrInfo} (h : p.ai_family = family)
    (rest : List AddrInfo) :
    addresses family (p :: rest) = p.ai_addr :: addresses family rest := by
  rw [addresses, List.filter_cons_of_pos (by simpa using h)]
  rfl

theorem addresses_cons_neg {family : Family} {p : AddrInfo} (h : ¬ p.ai_family = family)
    (rest : List AddrInfo) : addresses family (p :: rest) = addresses family rest := by
  rw [addresses, List.filter_cons_of_neg (by simpa using h)]
  rfl

theorem sa_family_of_mem_addresses {family : Family} {results : List AddrInfo} {a : SockAddr}
    (h : a ∈ addresses family results) : a.sa_family = family := by
  obtain ⟨p, hp, rfl⟩ := List.mem_map.mp h
  exact p.agrees.trans (by simpa using (List.mem_filter.mp hp).2)

/-- What the system reads of a candidate. -/
def given (socket_identifier : SocketAddr) : SockAddr :=
  socket_identifier.ptr.bytes socket_identifier.size

/-- A result becomes a candidate with its address. -/
theorem of_addr_ai_addr {p : AddrInfo} {T : AddrType} (h : p.ai_family = T.sa_family) :
    ∃ sa, SocketAddr.of_addr T p.ai_addr = .ok sa ∧ given sa = p.ai_addr :=
  ⟨_, SocketAddr.of_addr_of_family (p.agrees.trans h), SockAddr.bytes_memcpy (p.whole T h.symm)⟩

/-- The IPv6 results come out in front in the wrong order. -/
theorem add_candidates.spec (results : List AddrInfo) (deque : List SocketAddr) :
    ∃ candidates, add_candidates results deque = .ok candidates ∧
      candidates.map given =
        (addresses AF_INET6 results).reverse ++ deque.map given ++ addresses AF_INET results := by
  induction results generalizing deque with
  | nil => exact ⟨deque, rfl, by simp [addresses]⟩
  | cons p rest ih =>
    unfold add_candidates
    by_cases h4 : p.ai_family = AF_INET
    · have h6 : ¬ p.ai_family = AF_INET6 := by
        rw [h4]
        decide
      obtain ⟨sa, hsa, hgiven⟩ := of_addr_ai_addr (T := .sockaddr_in) h4
      obtain ⟨candidates, hadd, haddresses⟩ := ih (deque ++ [sa])
      rw [if_pos h4, hsa]
      refine ⟨candidates, hadd, ?_⟩
      rw [haddresses, addresses_cons_neg h6, addresses_cons_pos h4]
      simp [hgiven]
    · rw [if_neg h4]
      by_cases h6 : p.ai_family = AF_INET6
      · obtain ⟨sa, hsa, hgiven⟩ := of_addr_ai_addr (T := .sockaddr_in6) h6
        obtain ⟨candidates, hadd, haddresses⟩ := ih (sa :: deque)
        rw [if_pos h6, hsa]
        refine ⟨candidates, hadd, ?_⟩
        rw [haddresses, addresses_cons_pos h6, addresses_cons_neg h4]
        simp [hgiven]
      · rw [if_neg h6]
        obtain ⟨candidates, hadd, haddresses⟩ := ih deque
        refine ⟨candidates, hadd, ?_⟩
        rw [haddresses, addresses_cons_neg h6, addresses_cons_neg h4]

/-! ## The loop -/

/-- Socket and connection succeed for the address at pass `n`. -/
def Succeeds (sys : System) (n : Nat) (a : SockAddr) : Prop :=
  sys.candidate_socket n a.sa_family ≥ 0 ∧ sys.connect n a = 0

instance (sys : System) (n : Nat) (a : SockAddr) : Decidable (Succeeds sys n a) :=
  inferInstanceAs (Decidable (_ ∧ _))

/-- The calls that try the addresses in their order, from pass `n` on and up to the first
that succeeds. -/
def attempts (sys : System) : Nat → List SockAddr → List SysCall
  | _, [] => []
  | n, a :: rest =>
    let fd := sys.candidate_socket n a.sa_family
    .candidate_socket a.sa_family fd ::
      if fd ≥ 0 then
        .connect fd a :: if sys.connect n a = 0 then [] else attempts sys (n + 1) rest
      else attempts sys (n + 1) rest

/-- The first of the addresses that succeeds, with its pass. -/
def first_success (sys : System) : Nat → List SockAddr → Option (Nat × SockAddr)
  | _, [] => none
  | n, a :: rest => if Succeeds sys n a then some (n, a) else first_success sys (n + 1) rest

theorem attempts_cons_of_succeeds {sys : System} {n : Nat} {a : SockAddr}
    (h : Succeeds sys n a) (rest : List SockAddr) :
    attempts sys n (a :: rest) =
      [.candidate_socket a.sa_family (sys.candidate_socket n a.sa_family),
        .connect (sys.candidate_socket n a.sa_family) a] := by
  simp only [attempts, if_pos h.1, if_pos h.2]

/-- The calls for an address that does not succeed. -/
def failed_attempt (sys : System) (n : Nat) (a : SockAddr) : List SysCall :=
  .candidate_socket a.sa_family (sys.candidate_socket n a.sa_family) ::
    if sys.candidate_socket n a.sa_family ≥ 0 then
      [.connect (sys.candidate_socket n a.sa_family) a]
    else []

theorem attempts_cons_of_fails {sys : System} {n : Nat} {a : SockAddr}
    (h : ¬ Succeeds sys n a) (rest : List SockAddr) :
    attempts sys n (a :: rest) = failed_attempt sys n a ++ attempts sys (n + 1) rest := by
  unfold failed_attempt
  by_cases hsocket : sys.candidate_socket n a.sa_family ≥ 0
  · have hconnect : ¬ sys.connect n a = 0 := fun hzero => h ⟨hsocket, hzero⟩
    simp only [attempts, if_pos hsocket, if_neg hconnect, List.cons_append, List.nil_append]
  · simp only [attempts, if_neg hsocket, List.cons_append, List.nil_append]

theorem first_success_eq_none_iff (sys : System) (n : Nat) (list : List SockAddr) :
    first_success sys n list = none ↔
      ∀ k a, list[k]? = some a → ¬ Succeeds sys (n + k) a := by
  induction list generalizing n with
  | nil => simp [first_success]
  | cons b rest ih =>
    unfold first_success
    by_cases hb : Succeeds sys n b
    · rw [if_pos hb]
      refine iff_of_false (by simp) fun hall => hall 0 b rfl hb
    · rw [if_neg hb, ih]
      constructor
      · intro hall k a hk
        cases k with
        | zero => exact Option.some.inj hk ▸ hb
        | succ k =>
          rw [Nat.add_succ, ← Nat.succ_add]
          exact hall k a hk
      · intro hall k a hk
        rw [Nat.succ_add, ← Nat.add_succ]
        exact hall (k + 1) a hk

/-- The first address that succeeds is one of the list, and it has been connected to. -/
theorem first_success_eq_some {sys : System} {n k : Nat} {a : SockAddr} {list : List SockAddr}
    (h : first_success sys n list = some (k, a)) :
    Succeeds sys k a ∧ a ∈ list ∧
      .connect (sys.candidate_socket k a.sa_family) a ∈ attempts sys n list := by
  induction list generalizing n with
  | nil => cases h
  | cons b rest ih =>
    unfold first_success at h
    by_cases hb : Succeeds sys n b
    · rw [if_pos hb] at h
      cases h
      rw [attempts_cons_of_succeeds hb]
      exact ⟨hb, List.mem_cons_self, List.mem_cons_of_mem _ (List.mem_singleton_self _)⟩
    · rw [if_neg hb] at h
      obtain ⟨hsucceeds, hmem, hcall⟩ := ih h
      rw [attempts_cons_of_fails hb]
      exact ⟨hsucceeds, List.mem_cons_of_mem b hmem, List.mem_append_right _ hcall⟩

/-- The calls that have tried candidates, in order. -/
def tried (o : Outbound) : List SysCall := o.calls.filter SysCall.tries

theorem call_eq (c : SysCall) (o : Outbound) :
    call c o = .ok () { o with calls := o.calls ++ [c] } := rfl

@[simp] theorem tried_call (client : TcpClient) (calls : List SysCall) (c : SysCall) :
    tried ⟨client, calls ++ [c]⟩ =
      tried ⟨client, calls⟩ ++ if c.tries then [c] else [] := by
  unfold tried
  cases h : c.tries <;> simp [h]

/-- The socket is taken over, whether one had to be closed for it or not. -/
theorem assign_net_socket.spec (fd : Int) (o : Outbound) :
    ∃ calls, assign_net_socket fd o = .ok () ⟨{ o.client with net_socket := fd }, calls⟩ ∧
      tried ⟨{ o.client with net_socket := fd }, calls⟩ = o.tried := by
  by_cases hold : o.client.net_socket ≥ 0
  · refine ⟨o.calls ++ [.close o.client.net_socket], ?_, ?_⟩
    · rw [assign_net_socket, get_bind, if_pos hold, bind_ok (call_eq _ o)]
      exact modify_eq _ _
    · rw [tried_call]
      exact List.append_nil _
  · refine ⟨o.calls, ?_, rfl⟩
    rw [assign_net_socket, get_bind, if_neg hold]
    exact modify_eq _ o

/-- The local address can be read where it is looked at: when `getsockname` has failed. -/
def Readable (sys : System) : Prop :=
  sys.getsockname = 0 ∨ sys.uninitialised.family = AF_INET ∨ sys.uninitialised.family = AF_INET6

instance (sys : System) : Decidable (Readable sys) := inferInstanceAs (Decidable (_ ∨ _))

theorem read_local_port_of_zero {sys : System} (h : sys.getsockname = 0) (o : Outbound) :
    read_local_port sys o =
      .ok () { o with calls := o.calls ++ [.getsockname o.client.net_socket] } := by
  rw [read_local_port, get_bind, bind_ok (call_eq _ o), if_neg (not_not_intro h)]
  rfl

/-- When `getsockname` has failed, the port comes from what stood in the address before. -/
theorem read_local_port_of_family {sys : System} (h : sys.getsockname ≠ 0) {T : AddrType}
    (hT : T = .sockaddr_in ∨ T = .sockaddr_in6)
    (hfamily : sys.uninitialised.addr.sa_family = T.sa_family) (o : Outbound) :
    read_local_port sys o = .ok () ⟨{ o.client with port := sys.uninitialised.addr.port },
      o.calls ++ [.getsockname o.client.net_socket]⟩ := by
  have hname : getsockname sys = sys.uninitialised := if_neg h
  have hassign := SocketAddr.assign_any_self hfamily
  have hcast := SocketAddr.cast_of_family (s := ⟨sys.uninitialised.addr, T.sizeof⟩) hfamily
  rw [read_local_port, get_bind, bind_ok (call_eq _ o), if_pos h, hname, hassign,
    bind_ok (ofExcept_ok _ _)]
  have hlocal : (SocketAddr.mk sys.uninitialised.addr T.sizeof).family = T.sa_family := hfamily
  rw [hlocal]
  rcases hT with rfl | rfl
  · have hin : AddrType.sockaddr_in.sa_family = AF_INET := rfl
    rw [if_pos hin, hcast, bind_ok (ofExcept_ok _ _)]
    exact modify_eq _ _
  · have hin : ¬ AddrType.sockaddr_in6.sa_family = AF_INET := by decide
    have hin6 : AddrType.sockaddr_in6.sa_family = AF_INET6 := rfl
    rw [if_neg hin, if_pos hin6, hcast, bind_ok (ofExcept_ok _ _)]
    exact modify_eq _ _

theorem read_local_port_of_unreadable {sys : System} (h : ¬ Readable sys) (o : Outbound) :
    ∃ msg, read_local_port sys o = .error (.netio_exception msg)
      { o with calls := o.calls ++ [.getsockname o.client.net_socket] } := by
  have hfails : sys.getsockname ≠ 0 := fun hzero => h (Or.inl hzero)
  have hin : ¬ sys.uninitialised.addr.sa_family = AF_INET := fun hin => h (Or.inr (Or.inl hin))
  have hin6 : ¬ sys.uninitialised.addr.sa_family = AF_INET6 := fun hin6 => h (Or.inr (Or.inr hin6))
  have hname : getsockname sys = sys.uninitialised := if_neg hfails
  rw [read_local_port, get_bind, bind_ok (call_eq _ o), if_pos hfails, hname]
  by_cases hknown : ∃ T : AddrType, sys.uninitialised.addr.sa_family = T.sa_family
  · obtain ⟨T, hT⟩ := hknown
    refine ⟨"Invalid/unexpected local socket address type", ?_⟩
    have hlocal : (SocketAddr.mk sys.uninitialised.addr T.sizeof).family =
        sys.uninitialised.addr.sa_family := rfl
    rw [SocketAddr.assign_any_self hT, bind_ok (ofExcept_ok _ _), hlocal, if_neg hin, if_neg hin6]
    exact throw_eq _ _
  · push Not at hknown
    refine ⟨"Trying to assign unknown address family", ?_⟩
    rw [SocketAddr.assign_any_unknown hknown]
    exact bind_error (ofExcept_error _ _) _

/-- What becomes of a client whose candidate has connected. -/
theorem read_local_port.spec (sys : System) (o : Outbound) :
    ∃ o', o'.tried = o.tried ∧ o'.client.net_socket = o.client.net_socket ∧
      (sys.getsockname = 0 → o'.client.port = o.client.port) ∧
      if Readable sys then read_local_port sys o = .ok () o'
      else ∃ msg, read_local_port sys o = .error (.netio_exception msg) o' := by
  have htried : ∀ client : TcpClient,
      tried ⟨client, o.calls ++ [.getsockname o.client.net_socket]⟩ = o.tried := by
    intro client
    rw [tried_call]
    exact List.append_nil _
  by_cases hzero : sys.getsockname = 0
  · have hreadable : Readable sys := Or.inl hzero
    refine ⟨⟨o.client, _⟩, htried _, rfl, fun _ => rfl, ?_⟩
    rw [if_pos hreadable]
    exact read_local_port_of_zero hzero o
  · by_cases hreadable : Readable sys
    · obtain ⟨T, hT, hfamily⟩ : ∃ T, (T = AddrType.sockaddr_in ∨ T = .sockaddr_in6) ∧
          sys.uninitialised.addr.sa_family = T.sa_family := by
        rcases hreadable with h | h | h
        · exact absurd h hzero
        · exact ⟨.sockaddr_in, Or.inl rfl, h⟩
        · exact ⟨.sockaddr_in6, Or.inr rfl, h⟩
      refine ⟨⟨{ o.client with port := sys.uninitialised.addr.port }, _⟩, htried _, rfl,
        fun h => absurd h hzero, ?_⟩
      rw [if_pos hreadable]
      exact read_local_port_of_family hzero hT hfamily o
    · refine ⟨⟨o.client, _⟩, htried _, rfl, fun _ => rfl, ?_⟩
      rw [if_neg hreadable]
      exact read_local_port_of_unreadable hreadable o

theorem set_nonblocking.spec (sys : System) (o : Outbound) :
    ∃ o', set_nonblocking sys o = .ok () o' ∧ o'.tried = o.tried ∧ o'.client = o.client := by
  refine ⟨⟨o.client, (o.calls ++ [.fcntl_getfl o.client.net_socket]) ++
    [.fcntl_setfl o.client.net_socket (sys.fcntl_getfl o.client.net_socket ||| O_NONBLOCK)]⟩,
    ?_, ?_, rfl⟩
  · rw [set_nonblocking, get_bind, bind_ok (call_eq _ o), call_eq]
  · rw [tried_call, tried_call]
    simp [SysCall.tries]

/-- A candidate that does not succeed is left behind. -/
theorem connect_loop_fails {sys : System} {n : Nat} {c : SocketAddr}
    (h : ¬ Succeeds sys n (given c)) (rest : List SocketAddr) (o : Outbound) :
    ∃ o', connect_loop sys n (c :: rest) o = connect_loop sys (n + 1) rest o' ∧
      o'.tried = o.tried ++ failed_attempt sys n (given c) ∧ o'.client = o.client := by
  have hfamily : (given c).sa_family = c.family := rfl
  unfold failed_attempt
  rw [hfamily]
  by_cases hsocket : sys.candidate_socket n c.family ≥ 0
  · have hconnect : ¬ sys.connect n (c.ptr.bytes c.size) = 0 := fun hzero => h ⟨hsocket, hzero⟩
    refine ⟨⟨o.client, ((o.calls ++ [.candidate_socket c.family (sys.candidate_socket n c.family)])
      ++ [.connect (sys.candidate_socket n c.family) (given c)]) ++
        [.close (sys.candidate_socket n c.family)]⟩, ?_, ?_, rfl⟩
    · rw [connect_loop]
      simp only
      rw [bind_ok (call_eq _ o), if_pos hsocket, bind_ok (call_eq _ _), if_neg hconnect,
        bind_ok (call_eq _ _)]
      rfl
    · rw [tried_call, tried_call, tried_call, if_pos hsocket]
      simp [SysCall.tries]
  · refine ⟨⟨o.client, o.calls ++ [.candidate_socket c.family (sys.candidate_socket n c.family)]⟩,
      ?_, ?_, rfl⟩
    · rw [connect_loop]
      simp only
      rw [bind_ok (call_eq _ o), if_neg hsocket]
    · rw [tried_call, if_neg hsocket]
      rfl

/-- The socket of a candidate that succeeds becomes the client's. -/
theorem connect_loop_succeeds {sys : System} {n : Nat} {c : SocketAddr}
    (h : Succeeds sys n (given c)) (rest : List SocketAddr) (o : Outbound) :
    ∃ o', connect_loop sys n (c :: rest) o = read_local_port sys o' ∧
      o'.tried = o.tried ++ attempts sys n (given c :: rest.map given) ∧
      o'.client = { o.client with net_socket := sys.candidate_socket n c.family } := by
  obtain ⟨calls, hassign, htried⟩ := assign_net_socket.spec (sys.candidate_socket n c.family)
    ⟨o.client, (o.calls ++ [.candidate_socket c.family (sys.candidate_socket n c.family)]) ++
      [.connect (sys.candidate_socket n c.family) (given c)]⟩
  obtain ⟨o', hfcntl, htried', hclient⟩ := set_nonblocking.spec sys
    ⟨{ o.client with net_socket := sys.candidate_socket n c.family }, calls⟩
  have hsocket : sys.candidate_socket n c.family ≥ 0 := h.1
  have hconnect : sys.connect n (c.ptr.bytes c.size) = 0 := h.2
  refine ⟨o', ?_, ?_, hclient⟩
  · rw [connect_loop]
    simp only
    rw [bind_ok (call_eq _ o), if_pos hsocket, bind_ok (call_eq _ _), if_pos hconnect]
    exact (bind_ok hassign _).trans (bind_ok hfcntl _)
  · rw [htried', htried, tried_call, tried_call, attempts_cons_of_succeeds h]
    simp [SysCall.tries, given, SockAddr.bytes, SocketAddr.family, SocketAddr.ptr]

/-- The loop tries the candidates up to the first that succeeds, and keeps its socket. -/
theorem connect_loop.spec (sys : System) (n : Nat) (candidates : List SocketAddr) (o : Outbound) :
    ∃ o', o'.tried = o.tried ++ attempts sys n (candidates.map given) ∧
      match first_success sys n (candidates.map given) with
      | none => ∃ msg, connect_loop sys n candidates o = .error (.netio_exception msg) o'
      | some (k, a) => connect_loop sys n candidates o = read_local_port sys o' ∧
          o'.client = { o.client with net_socket := sys.candidate_socket k a.sa_family } := by
  induction candidates generalizing n o with
  | nil => exact ⟨o, (List.append_nil _).symm, _, throw_eq _ o⟩
  | cons c rest ih =>
    rw [List.map_cons, first_success]
    by_cases h : Succeeds sys n (given c)
    · obtain ⟨o', hloop, htried, hclient⟩ := connect_loop_succeeds h rest o
      rw [if_pos h]
      exact ⟨o', htried, hloop, hclient⟩
    · obtain ⟨o₁, hloop, htried, hclient⟩ := connect_loop_fails h rest o
      obtain ⟨o', htried', hrest⟩ := ih (n + 1) o₁
      rw [if_neg h, hloop, ← hclient, attempts_cons_of_fails h]
      refine ⟨o', ?_, hrest⟩
      rw [htried', htried, List.append_assoc]

/-! ## The whole constructor -/

theorem unwind_ok {h : Constructor Unit} {o o' : Outbound} (hok : h o = .ok () o') :
    unwind h o = .ok () o' := tryCatch_ok hok _

theorem unwind_error {h : Constructor Unit} {o o' : Outbound} {e : Exn}
    (herror : h o = .error e o') : ∃ o'', unwind h o = .error e o'' ∧ o''.tried = o'.tried := by
  obtain ⟨calls, hassign, htried⟩ := assign_net_socket.spec (-1) o'
  refine ⟨_, ?_, htried⟩
  rw [unwind, tryCatch_error herror, bind_ok hassign]
  exact throw_eq e _

section

variable {sys : System} {peer_address service_or_port : String} {family : Family}

variable (sys peer_address service_or_port) in
/-- Without one of the two families the constructor throws before all else. -/
theorem of_family_of_invalid (h : ¬ (family = AF_INET ∨ family = AF_INET6)) :
    ∃ o, of_family sys peer_address service_or_port family =
        .error (.netio_exception "Invalid IP address family.") o ∧ o.tried = [] := by
  have hthrow : request_socket sys family (members peer_address) =
      .error (.netio_exception "Invalid IP address family.") (members peer_address) := by
    rw [request_socket, if_pos h]
    exact bind_error (throw_eq _ _) _
  exact unwind_error (bind_error hthrow _)

/-- The addresses in the order that the code makes of the results: the IPv6 ones in reverse,
and then the IPv4 ones. -/
def order (results : List AddrInfo) : List SockAddr :=
  (addresses AF_INET6 results).reverse ++ addresses AF_INET results

theorem resolve.spec {results : List AddrInfo}
    (hresults : sys.getaddrinfo peer_address service_or_port family = .ok results)
    (o : Outbound) :
    ∃ candidates, candidates.map given = order results ∧
      resolve sys peer_address service_or_port family o = .ok candidates
        { o with calls := o.calls ++ [.getaddrinfo peer_address service_or_port family] } := by
  obtain ⟨candidates, hadd, haddresses⟩ := add_candidates.spec results []
  refine ⟨candidates, by simpa [order] using haddresses, ?_⟩
  rw [resolve, bind_ok (call_eq _ o), hresults]
  simp only [hadd]
  exact ofExcept_ok _ _

variable (hfamily : family = AF_INET ∨ family = AF_INET6)

include hfamily

variable (sys) in
theorem request_socket.spec (o : Outbound) :
    ∃ o', o'.tried = o.tried ∧
      o'.client = { o.client with net_socket := sys.socket family } ∧
      request_socket sys family o =
        if sys.socket family ≥ 0 then .ok () o'
        else .error (.netio_exception "Failed to request socket fd from kernel.") o' := by
  obtain ⟨calls, hassign, htried⟩ := assign_net_socket.spec (sys.socket family)
    { o with calls := o.calls ++ [.socket family (sys.socket family)] }
  refine ⟨⟨{ o.client with net_socket := sys.socket family }, calls⟩, ?_, rfl, ?_⟩
  · rw [htried, tried_call]
    exact List.append_nil _
  · simp only [request_socket, if_neg (not_not_intro hfamily)]
    rw [bind_ok (call_eq _ o), bind_ok hassign]
    by_cases hsocket : sys.socket family ≥ 0
    · rw [if_neg (not_not_intro hsocket), if_pos hsocket]
      rfl
    · rw [if_pos hsocket, if_neg hsocket]
      exact throw_eq _ _

variable (peer_address service_or_port) in
/-- No candidate is tried when the first socket cannot be had. -/
theorem of_family_of_no_socket (h : ¬ sys.socket family ≥ 0) :
    ∃ o, of_family sys peer_address service_or_port family =
        .error (.netio_exception "Failed to request socket fd from kernel.") o ∧ o.tried = [] := by
  obtain ⟨o, htried, _, hrequest⟩ := request_socket.spec sys hfamily (members peer_address)
  rw [if_neg h] at hrequest
  obtain ⟨o', hthrown, htried'⟩ := unwind_error (bind_error hrequest _)
  exact ⟨o', hthrown, htried'.trans htried⟩

/-- The constructor with results from the resolver. The port is still the 0 of the
initializer list when `getsockname` succeeds. -/
theorem of_family.spec (hsocket : sys.socket family ≥ 0) {results : List AddrInfo}
    (hresults : sys.getaddrinfo peer_address service_or_port family = .ok results) :
    (ends (of_family sys peer_address service_or_port family)).tried =
        attempts sys 0 (order results) ∧
      match first_success sys 0 (order results) with
      | none => ∃ msg o, of_family sys peer_address service_or_port family =
          .error (.netio_exception msg) o
      | some (k, a) =>
        if Readable sys then
          ∃ o, of_family sys peer_address service_or_port family = .ok () o ∧
            o.client.net_socket = sys.candidate_socket k a.sa_family ∧
            (sys.getsockname = 0 → o.client.port = 0)
        else ∃ msg o, of_family sys peer_address service_or_port family =
          .error (.netio_exception msg) o := by
  obtain ⟨o₁, htried₁, hclient₁, hrequest⟩ :=
    request_socket.spec sys hfamily (members peer_address)
  rw [if_pos hsocket] at hrequest
  obtain ⟨candidates, haddresses, hresolve⟩ := resolve.spec hresults o₁
  obtain ⟨o₂, htried₂, hloop⟩ := connect_loop.spec sys 0 candidates
    { o₁ with calls := o₁.calls ++ [.getaddrinfo peer_address service_or_port family] }
  have hbody : body sys peer_address service_or_port family (members peer_address) =
      (connect_loop sys 0 candidates >>= fun _ => io_start)
        { o₁ with calls := o₁.calls ++ [.getaddrinfo peer_address service_or_port family] } :=
    (bind_ok hrequest _).trans (bind_ok hresolve _)
  have htried : o₂.tried = attempts sys 0 (order results) := by
    rw [htried₂, tried_call, htried₁, haddresses]
    rfl
  rw [haddresses] at hloop
  split at hloop
  · obtain ⟨msg, hthrow⟩ := hloop
    obtain ⟨o, hthrown, htried'⟩ := unwind_error (hbody.trans (bind_error hthrow _))
    rw [of_family, hthrown]
    exact ⟨htried'.trans htried, msg, o, rfl⟩
  · obtain ⟨hread, hclient₂⟩ := hloop
    obtain ⟨o₃, htried₃, hsocket₃, hport₃, hend⟩ := read_local_port.spec sys o₂
    by_cases hreadable : Readable sys
    · rw [if_pos hreadable] at hend
      have hdone : body sys peer_address service_or_port family (members peer_address) =
          .ok () { o₃ with client.io := ⟨o₃.client.net_socket, ev.READ, true⟩ } :=
        hbody.trans (bind_ok (hread.trans hend) _)
      rw [of_family, unwind_ok hdone, if_pos hreadable]
      refine ⟨htried₃.trans htried, _, rfl, ?_, ?_⟩
      · rw [hsocket₃, hclient₂]
      · intro hzero
        rw [hport₃ hzero, hclient₂, hclient₁]
        rfl
    · rw [if_neg hreadable] at hend
      obtain ⟨msg, hthrow⟩ := hend
      obtain ⟨o, hthrown, htried'⟩ := unwind_error (hbody.trans (bind_error (hread.trans hthrow) _))
      rw [of_family, hthrown, if_neg hreadable]
      exact ⟨htried'.trans (htried₃.trans htried), msg, o, rfl⟩

end

end Outbound

end rmrf.net
