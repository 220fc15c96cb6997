-- The peers of accepted clients. Whatever family a server listens on, it has the address
-- of a peer put into a `sockaddr_in`, and makes a text of the four bytes that an IPv4
-- address has there.
import Rmrf.Ip6Text
import Rmrf.Ostream
import Rmrf.SocketAddress
import Rmrf.TcpServerSocket

open fields numerals ostream

namespace rmrf.net

/-! ## The server's socket -/

/-- What the system answers to the constructor of a server. -/
structure ListenAnswers where
  socket : Family → Int
  bind : SocketAddr → Int
  listen : Int

/-- A socket that listens, and the family that it was requested for. -/
structure ListeningSocket where
  socket_fd : Int
  family : Family
deriving DecidableEq, Repr

namespace ListeningSocket

/-- `tcp_server_socket(socket_identifier, client_listener_)` -/
def of_socketaddr (sys : ListenAnswers) (socket_identifier : SocketAddr) :
    Except Exn ListeningSocket :=
  let socket_fd := sys.socket socket_identifier.family
  if ¬ socket_fd ≥ 0 then .error (.netio_exception "Failed to create socket fd.")
  else if sys.bind socket_identifier ≠ 0 then
    .error (.netio_exception "Failed to bind to all addresses (FIXME)")
  else if sys.listen = -1 then
    .error (.netio_exception "Failed to enable listening mode for raw socket")
  else .ok ⟨socket_fd, socket_identifier.family⟩

/-- Two fields of the `sockaddr_in6` are not written to, and have any bytes. -/
def get_ipv6_socketaddr (sin6_flowinfo sin6_scope_id : Vector UInt8 4) (port : UInt16) :
    Except Exn SocketAddr :=
  SocketAddr.of_addr .sockaddr_in6
    ⟨AF_INET6, htons port.toNat ++ sin6_flowinfo.toList ++ List.replicate 16 0 ++
      sin6_scope_id.toList⟩

/-- `tcp_server_socket(port, client_listener_)` -/
def of_port (sys : ListenAnswers) (sin6_flowinfo sin6_scope_id : Vector UInt8 4)
    (port : UInt16) : Except Exn ListeningSocket := do
  of_socketaddr sys (← get_ipv6_socketaddr sin6_flowinfo sin6_scope_id port)

/-- The server was bound to an IPv4 address, or made for a port. -/
def Made (sys : ListenAnswers) (listening : ListeningSocket) : Prop :=
  (∃ socket_identifier, socket_identifier.family = AF_INET ∧
    of_socketaddr sys socket_identifier = .ok listening) ∨
  ∃ sin6_flowinfo sin6_scope_id port,
    of_port sys sin6_flowinfo sin6_scope_id port = .ok listening

end ListeningSocket

/-! ## The peers -/

/-- A peer, with the fields of its `sockaddr_in` or `sockaddr_in6`. -/
inductive Peer
  | ip4 (sin_port : UInt16) (sin_addr : Vector UInt8 4) (sin_zero : Vector UInt8 8)
  | ip6 (sin6_port : UInt16) (sin6_flowinfo : Vector UInt8 4) (sin6_addr : Vector UInt8 16)
    (sin6_scope_id : Vector UInt8 4)
deriving DecidableEq, Repr

namespace Peer

def family : Peer → Family
  | .ip4 _ _ _ => AF_INET
  | .ip6 _ _ _ _ => AF_INET6

def port : Peer → UInt16
  | .ip4 sin_port _ _ => sin_port
  | .ip6 sin6_port _ _ _ => sin6_port

/-- The bytes of the IP address. -/
def ip : Peer → List UInt8
  | .ip4 _ sin_addr _ => sin_addr.toList
  | .ip6 _ _ sin6_addr _ => sin6_addr.toList

def sockaddr : Peer → SockAddr
  | .ip4 sin_port sin_addr sin_zero =>
    ⟨AF_INET, htons sin_port.toNat ++ sin_addr.toList ++ sin_zero.toList⟩
  | .ip6 sin6_port sin6_flowinfo sin6_addr sin6_scope_id =>
    ⟨AF_INET6, htons sin6_port.toNat ++ sin6_flowinfo.toList ++ sin6_addr.toList ++
      sin6_scope_id.toList⟩

/-- The text is one of the peer's IP address. -/
def HasText (peer : Peer) (t : List Char) : Prop :=
  match peer with
  | .ip4 _ sin_addr _ => ∃ q : details.Quad, t = q.text ∧
    [value 10 q.a, value 10 q.b, value 10 q.c, value 10 q.d] = sin_addr.toList.map (·.toNat)
  | .ip6 _ _ sin6_addr _ => ∃ (tail : details.Tail) (u : details.Ip6Text tail),
    (tail = .none ∨ ∃ q, tail = .quad q) ∧ t = u.text ∧
      u.bytes = sin6_addr.toList.map (·.toNat)

end Peer

/-! ## The client of a peer -/

/-- `accept(fd, (struct sockaddr *)&client_addr, &client_len)` cuts the address of the peer
to the length that it is given. -/
def accept (client_addr : SockAddr) (client_len : Nat) (peer : SockAddr) : SockAddr :=
  client_addr.memcpy peer (min client_len (2 + peer.sa_data.length))

/-- `inet_ntoa` of the bytes of an `in_addr`. -/
def inet_ntoa (sin_addr : List UInt8) : String :=
  String.ofList (join '.' (sin_addr.map fun b => numeral 10 false b.toNat))

namespace TcpServerSocket

/-- `await_raw_socket_incomming` for a peer. Nothing has been written to `client_addr`
before. -/
def await_peer (s : TcpServerSocket) (client_fd_raw : Nat) (client_addr : SockAddr)
    (peer : SockAddr) : TcpServerSocket :=
  let client_addr := accept client_addr AddrType.sockaddr_in.sizeof peer
  s.await_raw_socket_incomming client_fd_raw (inet_ntoa client_addr.sin_addr) client_addr.port

/-- The client that the server has made last. -/
def newest (s : TcpServerSocket) : Option TcpClient := s.clients.getLast?.map (·.world.client)

/-- The client of a peer has its address as a text, and its port. -/
def CarriesPeer (s : TcpServerSocket) (client_fd_raw : Nat) (client_addr : SockAddr)
    (peer : Peer) : Prop :=
  ∃ client, (s.await_peer client_fd_raw client_addr peer.sockaddr).newest = some client ∧
    peer.HasText client.peer_address.toList ∧ client.port = peer.port.toNat

/-- Peers of the family with different addresses have different texts. -/
def TellsApart (family : Family) : Prop :=
  ∀ (s s' : TcpServerSocket) (fd fd' : Nat) (addr addr' : SockAddr) (p q : Peer),
    p.family = family → q.family = family → p.ip ≠ q.ip →
    ((s.await_peer fd addr p.sockaddr).newest.map (·.peer_address)) ≠
      (s'.await_peer fd' addr' q.sockaddr).newest.map (·.peer_address)

/-! ## What the client gets -/

end TcpServerSocket

theorem port_htons (port : UInt16) :
    (UInt8.ofNat (port.toNat / 256)).toNat * 256 + (UInt8.ofNat (port.toNat % 256)).toNat =
      port.toNat := by
  have hlt := port.toNat_lt
  rw [UInt8.toNat_ofNat', UInt8.toNat_ofNat']
  omega

/-- The structure has the port, and the four bytes behind it, of either family. -/
theorem accept_layout (client_addr : SockAddr) (family : Family) (port : UInt16)
    {four rest : List UInt8} (hfour : four.length = 4) (hrest : 8 ≤ rest.length) :
    (accept client_addr 16 ⟨family, htons port.toNat ++ four ++ rest⟩).port = port.toNat ∧
      (accept client_addr 16 ⟨family, htons port.toNat ++ four ++ rest⟩).sin_addr = four := by
  have hlen : (htons port.toNat ++ four ++ rest).length = 6 + rest.length := by
    simp [htons, hfour]
    omega
  have hmin : min 16 (2 + (6 + rest.length)) - 2 = 14 := by omega
  have hdata : (accept client_addr 16 ⟨family, htons port.toNat ++ four ++ rest⟩).sa_data =
      htons port.toNat ++ (four ++ (rest.take 8 ++ client_addr.sa_data.drop 14)) := by
    simp only [accept, SockAddr.memcpy, hlen, hmin]
    simp [htons, List.take_append, hfour]
  constructor
  · rw [SockAddr.port, hdata]
    exact port_htons port
  · rw [SockAddr.sin_addr, hdata]
    show (four ++ (rest.take 8 ++ client_addr.sa_data.drop 14)).take 4 = four
    rw [List.take_left' hfour]

/-- What the `sockaddr_in` has for an address: with an IPv6 peer it is the flow information. -/
def Peer.sin_addr : Peer → List UInt8
  | .ip4 _ sin_addr _ => sin_addr.toList
  | .ip6 _ sin6_flowinfo _ _ => sin6_flowinfo.toList

theorem Peer.length_sin_addr (peer : Peer) : peer.sin_addr.length = 4 := by
  cases peer <;> exact Vector.length_toList

theorem accept_peer (client_addr : SockAddr) (peer : Peer) :
    (accept client_addr 16 peer.sockaddr).port = peer.port.toNat ∧
      (accept client_addr 16 peer.sockaddr).sin_addr = peer.sin_addr := by
  cases peer with
  | ip4 sin_port sin_addr sin_zero =>
    exact accept_layout client_addr AF_INET sin_port Vector.length_toList
      (Nat.le_of_eq Vector.length_toList.symm)
  | ip6 sin6_port sin6_flowinfo sin6_addr sin6_scope_id =>
    have hrest : 8 ≤ (sin6_addr.toList ++ sin6_scope_id.toList).length := by
      rw [List.length_append, Vector.length_toList, Vector.length_toList]
      decide
    have hfour : sin6_flowinfo.toList.length = 4 := Vector.length_toList
    have hlayout := accept_layout client_addr AF_INET6 sin6_port hfour hrest
    rw [← List.append_assoc] at hlayout
    exact hlayout

namespace TcpServerSocket

theorem newest_await_peer (s : TcpServerSocket) (client_fd_raw : Nat) (client_addr : SockAddr)
    (peer : Peer) :
    (s.await_peer client_fd_raw client_addr peer.sockaddr).newest =
      some (TcpClient.of_socket true client_fd_raw (inet_ntoa peer.sin_addr)
        peer.port.toNat).client := by
  obtain ⟨hport, haddr⟩ := accept_peer client_addr peer
  have hawait : s.await_peer client_fd_raw client_addr peer.sockaddr =
      s.await_raw_socket_incomming client_fd_raw
        (inet_ntoa (accept client_addr 16 peer.sockaddr).sin_addr)
        (accept client_addr 16 peer.sockaddr).port := rfl
  rw [hawait, haddr, hport, newest, await_raw_socket_incomming, List.getLast?_concat]
  rfl

end TcpServerSocket

/-! ## The texts of four bytes -/

/-- A numeral has no zero in front, but for the number 0. -/
theorem numeral_plain {n : Nat} (h : (numeral 10 false n).head? = some '0') :
    numeral 10 false n = ['0'] := by
  by_cases hn : n = 0
  · rw [hn]
    rfl
  · have hne : Nat.digits 10 n ≠ [] := Nat.digits_ne_nil_iff_ne_zero.mpr hn
    have hhead : (digits 10 n).head? = some ((Nat.digits 10 n).getLast hne) := by
      rw [digits, if_neg hn, List.head?_reverse, List.getLast?_eq_some_getLast hne]
    rw [numeral, List.head?_map, hhead, Option.map_some] at h
    have hlt : (Nat.digits 10 n).getLast hne < 10 :=
      Nat.digits_lt_base (by decide) (List.getLast_mem hne)
    have hdigit := digit_digitChar false (Nat.lt_of_lt_of_le hlt (by decide))
    rw [Option.some.inj h] at hdigit
    exact absurd (Option.some.inj hdigit).symm (Nat.getLast_digit_ne_zero 10 hn)

theorem numeral_octet {n : Nat} (h : n < 256) : details.Octet (numeral 10 false n) := by
  have hvalue : value 10 (numeral 10 false n) = n := value_numeral (by decide) (by decide) false n
  have hlen : 1 ≤ (numeral 10 false n).length ∧ (numeral 10 false n).length ≤ 3 := by
    rw [length_numeral, digits]
    split_ifs with hn
    · exact ⟨Nat.le_refl 1, by decide⟩
    · rw [List.length_reverse]
      exact ⟨List.length_pos_iff.mpr (Nat.digits_ne_nil_iff_ne_zero.mpr hn),
        (Nat.digits_length_le_iff (by decide) n).mpr (by omega)⟩
  refine ⟨⟨List.ne_nil_of_length_pos hlen.1, ?_⟩, hlen.2, ?_, numeral_plain⟩
  · intro c hc
    exact isDigit_numeral (by decide) (by decide) hc
  · rw [hvalue]
    omega

/-- The text of four bytes is read back. -/
theorem inet_ntoa_inj {u v : List UInt8} (hu : u ≠ []) (hv : v ≠ [])
    (h : inet_ntoa u = inet_ntoa v) : u = v := by
  have hdot : ∀ (w : List UInt8), ∀ f ∈ w.map fun b => numeral 10 false b.toNat, '.' ∉ f := by
    intro w f hf hmem
    obtain ⟨b, _, rfl⟩ := List.mem_map.mp hf
    exact absurd (isDigit_numeral (by decide) (by decide) hmem) (by decide)
  have hjoin := congrArg (·.splitOn '.') (String.ofList_injective h)
  simp only [join] at hjoin
  rw [List.splitOn_intercalate '.' (hdot u) (by simpa using hu),
    List.splitOn_intercalate '.' (hdot v) (by simpa using hv)] at hjoin
  apply List.map_injective_iff.mpr ?_ hjoin
  intro a b hab
  have hvalue := congrArg (value 10) hab
  rw [value_numeral (by decide) (by decide), value_numeral (by decide) (by decide)] at hvalue
  exact UInt8.toNat_inj.mp hvalue

theorem exists_four {α : Type} {list : List α} (h : list.length = 4) :
    ∃ a b c d, list = [a, b, c, d] := by
  rcases list with _ | ⟨a, _ | ⟨b, _ | ⟨c, _ | ⟨d, _ | ⟨e, more⟩⟩⟩⟩⟩
  · cases h
  · cases h
  · cases h
  · cases h
  · exact ⟨a, b, c, d, rfl⟩
  · simp at h

/-- Four bytes have the text of an IPv4 address. -/
theorem inet_ntoa_hasText (sin_port : UInt16) (sin_addr : Vector UInt8 4)
    (sin_zero : Vector UInt8 8) :
    (Peer.ip4 sin_port sin_addr sin_zero).HasText (inet_ntoa sin_addr.toList).toList := by
  have hlen : sin_addr.toList.length = 4 := Vector.length_toList
  obtain ⟨a, b, c, d, hbytes⟩ := exists_four hlen
  refine ⟨⟨_, _, _, _, numeral_octet a.toNat_lt, numeral_octet b.toNat_lt,
    numeral_octet c.toNat_lt, numeral_octet d.toNat_lt⟩, ?_, ?_⟩
  · rw [inet_ntoa, String.toList_ofList, hbytes]
    simp [join, details.Quad.text, details.dotted]
  · rw [hbytes]
    simp only [value_numeral (by decide : 1 < 10) (by decide)]
    rfl

theorem no_colon_inet_ntoa (bytes : List UInt8) : ':' ∉ (inet_ntoa bytes).toList := by
  rw [inet_ntoa, String.toList_ofList]
  intro hmem
  rcases mem_join '.' hmem with hsep | ⟨f, hf, hc⟩
  · exact absurd hsep (by decide)
  · obtain ⟨b, _, rfl⟩ := List.mem_map.mp hf
    exact absurd (isDigit_numeral (by decide) (by decide) hc) (by decide)

namespace TcpServerSocket

theorem carriesPeer_iff (s : TcpServerSocket) (client_fd_raw : Nat) (client_addr : SockAddr)
    (peer : Peer) : s.CarriesPeer client_fd_raw client_addr peer ↔ peer.family = AF_INET := by
  unfold CarriesPeer
  rw [newest_await_peer]
  cases peer with
  | ip4 sin_port sin_addr sin_zero =>
    exact iff_of_true ⟨_, rfl, inet_ntoa_hasText sin_port sin_addr sin_zero, rfl⟩ rfl
  | ip6 sin6_port sin6_flowinfo sin6_addr sin6_scope_id =>
    apply iff_of_false
    · rintro ⟨client, hclient, ⟨tail, u, htail, htext, _⟩, _⟩
      cases hclient
      have hwords : tail.words.length ≤ 2 := by
        rcases htail with rfl | ⟨q, rfl⟩
        · exact Nat.zero_le 2
        · exact Nat.le_refl 2
      have hmem := u.colon_mem hwords
      rw [← htext] at hmem
      exact no_colon_inet_ntoa sin6_flowinfo.toList hmem
    · show ¬ AF_INET6 = AF_INET
      decide

theorem tellsApart_iff {family : Family} (h : family = AF_INET ∨ family = AF_INET6) :
    TellsApart family ↔ family = AF_INET := by
  constructor
  · intro htells
    rcases h with rfl | rfl
    · rfl
    · -- two peers with the same flow information
      have hsame := htells listening listening 4 4 sockaddr_storage sockaddr_storage
        (.ip6 0 (Vector.replicate 4 0) (Vector.replicate 16 0) (Vector.replicate 4 0))
        (.ip6 0 (Vector.replicate 4 0) (Vector.replicate 16 1) (Vector.replicate 4 0))
        rfl rfl (by decide)
      rw [newest_await_peer, newest_await_peer] at hsame
      exact absurd rfl hsame
  · rintro rfl s s' fd fd' addr addr' p q hp hq hne heq
    rw [newest_await_peer, newest_await_peer] at heq
    have hcons : ∀ peer : Peer, peer.sin_addr ≠ [] := fun peer =>
      List.ne_nil_of_length_pos (by rw [peer.length_sin_addr]; decide)
    have hbytes := inet_ntoa_inj (hcons p) (hcons q) (Option.some.inj heq)
    cases p with
    | ip6 => cases hp
    | ip4 =>
      cases q with
      | ip6 => cases hq
      | ip4 => exact hne hbytes

end TcpServerSocket

/-! ## The law -/

open TcpServerSocket

theorem ListeningSocket.family_of_socketaddr {sys : ListenAnswers} {id : SocketAddr}
    {listening : ListeningSocket} (h : of_socketaddr sys id = .ok listening) :
    listening.family = id.family := by
  simp only [of_socketaddr] at h
  split_ifs at h
  cases h
  rfl

theorem ListeningSocket.family_of_made {sys : ListenAnswers} {listening : ListeningSocket}
    (h : Made sys listening) : listening.family = AF_INET ∨ listening.family = AF_INET6 := by
  rcases h with ⟨id, hid, hmade⟩ | ⟨sin6_flowinfo, sin6_scope_id, port, hmade⟩
  · exact Or.inl ((family_of_socketaddr hmade).trans hid)
  · exact Or.inr (family_of_socketaddr hmade)

/-- The clients of a server carry their peers exactly when it listens on an IPv4 address. -/
theorem only_ip4_clients_carry_their_peer (sys : ListenAnswers) (listening : ListeningSocket)
    (h : listening.Made sys) :
    (∀ (s : TcpServerSocket) (client_fd_raw : Nat) (client_addr : SockAddr) (peer : Peer),
      peer.family = listening.family →
        (s.CarriesPeer client_fd_raw client_addr peer ↔ listening.family = AF_INET)) ∧
    (TellsApart listening.family ↔ listening.family = AF_INET) := by
  refine ⟨?_, tellsApart_iff (ListeningSocket.family_of_made h)⟩
  intro s client_fd_raw client_addr peer hpeer
  rw [← hpeer]
  exact carriesPeer_iff s client_fd_raw client_addr peer

/-- A server for port 993, and a peer at 2001:db8::1. -/
theorem an_ip6_client_gets_the_flow_information :
    (ListeningSocket.of_port ⟨fun _ => 3, fun _ => 0, 0⟩ (Vector.replicate 4 0)
      (Vector.replicate 4 0) 993 = .ok ⟨3, AF_INET6⟩) ∧
    ((listening.await_peer 4 sockaddr_storage (Peer.ip6 40000 (Vector.replicate 4 0)
      #v[0x20, 0x01, 0x0d, 0xb8, 0, 0, 0, 0, 0, 0, 0, 0, 0, 0, 0, 1]
      (Vector.replicate 4 0)).sockaddr).newest.map (·.peer_address) = some "0.0.0.0") ∧
    ¬ listening.CarriesPeer 4 sockaddr_storage (Peer.ip6 40000 (Vector.replicate 4 0)
      #v[0x20, 0x01, 0x0d, 0xb8, 0, 0, 0, 0, 0, 0, 0, 0, 0, 0, 0, 1] (Vector.replicate 4 0)) ∧
    ¬ TellsApart AF_INET6 := by
  refine ⟨rfl, by rw [newest_await_peer]; rfl, ?_, ?_⟩
  · rw [carriesPeer_iff]
    decide
  · rw [tellsApart_iff (Or.inr rfl)]
    decide

/-- A server on 127.0.0.1, and a peer at 10.0.0.7. -/
theorem an_ip4_client_carries_its_peer :
    listening.CarriesPeer 4 sockaddr_storage
      (.ip4 40000 #v[10, 0, 0, 7] (Vector.replicate 8 0)) :=
  ((only_ip4_clients_carry_their_peer ⟨fun _ => 3, fun _ => 0, 0⟩ ⟨3, AF_INET⟩
      (Or.inl ⟨⟨⟨AF_INET, htons 993 ++ [127, 0, 0, 1] ++ List.replicate 8 0⟩, 16⟩, rfl, rfl⟩)).1
    listening 4 sockaddr_storage (.ip4 40000 #v[10, 0, 0, 7] (Vector.replicate 8 0)) rfl).mpr rfl

end rmrf.net
