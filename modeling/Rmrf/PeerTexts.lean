-- The texts of peers are addresses again. What a server keeps as the address of an IPv4
-- peer is read back by every function that reads one, and a peer whose address and port
-- were written as literals comes back under them.
import Rmrf.AcceptedPeers
import Rmrf.Ip4Readings

open fields machine numerals ostream

namespace rmrf.net

open details

/-! ## Ports -/

/-- `host_to_net` of a `uint16_t` -/
def details.host_to_net16 (order : ByteOrder) (hostval : Nat) : Nat :=
  match order with
  | .big => hostval
  | .little => hostval % 256 * 256 + hostval / 256

/-- The bytes of a 16-bit word in memory. -/
def inMemory16 : ByteOrder → Nat → List Nat
  | .big, x => [x / 256, x % 256]
  | .little, x => [x % 256, x / 256]

/-- `operator"" _ipport` -/
def ipport (order : ByteOrder) (port : Nat) : Nat :=
  if port > 65535 then 0 else host_to_net16 order port

theorem inMemory16_ipport (order : ByteOrder) {port : Nat} (h : port ≤ 65535) :
    inMemory16 order (ipport order port) = [port / 256, port % 256] := by
  unfold ipport
  rw [if_neg (by omega)]
  cases order with
  | big => rfl
  | little =>
    simp only [inMemory16, host_to_net16, List.cons.injEq, and_true]
    omega

/-! ## Texts that are read -/

/-- Every function that reads an IPv4 text reads this address in it. -/
structure ReadBack (order : ByteOrder) (t : List Char) (addr : Nat) : Prop where
  inet_addr : inet_addr order (cstr t) = some addr
  inet_aton : inet_aton order (cstr t) = some addr
  inet_pton : inet_pton_inet order (cstr t) = some addr
  ip4 : ip4 order (cstr t) = some (some addr)
  ipaddr : ipaddr order (cstr t) = some (some (.in_addr addr))

theorem readBack_quad (order : ByteOrder) (q : Quad) :
    ReadBack order q.text (host_to_net order q.word) := by
  have htaken := quad_taken order q
  have hcanonical := quad_canonical order q
  have hvalid : is_valid_ip4addr order (cstr q.text) = some true := by
    simp [is_valid_ip4addr, inet_aton_impl, htaken]
  have haton : inet_aton order (cstr q.text) = some (host_to_net order q.word) := by
    simp [inet_aton, inet_aton_impl, htaken]
  refine ⟨?_, haton, ?_, ?_, ?_⟩
  · simp [inet_addr, htaken]
  · simp [inet_pton_inet, inet_aton_canonical, hcanonical]
  · simp [ip4, hvalid, haton]
  · rcases inet6_aton_cases order q.text in6_zero with ⟨r6, h6⟩ | h6
    · simp [ipaddr, hvalid, haton, is_valid_ip6addr, h6]
    · simp [ipaddr, hvalid, haton, is_valid_ip6addr, h6]

/-- The quad of four bytes has their text. -/
theorem inet_ntoa_quad {q : Quad} {bytes : List UInt8} (h : q.bytes = bytes.map (·.toNat)) :
    (inet_ntoa bytes).toList = q.text := by
  obtain ⟨ha, hb, hc, hd⟩ := q.octets
  have hself : ∀ {t}, Octet t → numeral 10 false (value 10 t) = t :=
    fun ht => numeral_value ht.numeral ht.plain
  have hmap : (bytes.map fun b => numeral 10 false b.toNat) =
      (bytes.map (·.toNat)).map (numeral 10 false) := by
    rw [List.map_map]
    rfl
  rw [inet_ntoa, String.toList_ofList, hmap, ← h]
  simp only [Quad.bytes, List.map_cons, List.map_nil, hself ha, hself hb, hself hc, hself hd]
  simp [join, Quad.text, dotted]

theorem exists_quad {bytes : List UInt8} (h : bytes.length = 4) :
    ∃ q : Quad, q.bytes = bytes.map (·.toNat) := by
  obtain ⟨a, b, c, d, rfl⟩ := exists_four h
  refine ⟨⟨_, _, _, _, numeral_octet a.toNat_lt, numeral_octet b.toNat_lt,
    numeral_octet c.toNat_lt, numeral_octet d.toNat_lt⟩, ?_⟩
  simp only [Quad.bytes, value_numeral (by decide : 1 < 10) (by decide : 10 ≤ 16), List.map_cons,
    List.map_nil]

/-- The text of four bytes is read as the address that has them in memory. -/
theorem readBack_inet_ntoa (order : ByteOrder) {bytes : List UInt8} (h : bytes.length = 4) :
    ∃ addr, inMemory order addr = bytes.map (·.toNat) ∧
      ReadBack order (inet_ntoa bytes).toList addr := by
  obtain ⟨q, hq⟩ := exists_quad h
  refine ⟨host_to_net order q.word, ?_, ?_⟩
  · rw [inMemory_host_to_net, q.octets_word, hq]
  · rw [inet_ntoa_quad hq]
    exact readBack_quad order q

namespace TcpServerSocket

/-- Every IPv4 peer of a server can be reached again over what its client keeps of it: all
functions read the bytes of the peer's address in the text. -/
theorem an_accepted_peer_is_read_back (order : ByteOrder) (s : TcpServerSocket)
    (client_fd_raw : Nat) (client_addr : SockAddr) (sin_port : UInt16)
    (sin_addr : Vector UInt8 4) (sin_zero : Vector UInt8 8) :
    ∃ client addr, (s.await_peer client_fd_raw client_addr
        (Peer.ip4 sin_port sin_addr sin_zero).sockaddr).newest = some client ∧
      inMemory order addr = sin_addr.toList.map (·.toNat) ∧
      ReadBack order client.peer_address.toList addr := by
  obtain ⟨addr, hmemory, hread⟩ :=
    readBack_inet_ntoa order (Vector.length_toList : sin_addr.toList.length = 4)
  exact ⟨_, addr, newest_await_peer s client_fd_raw client_addr _, hmemory, hread⟩

end TcpServerSocket

/-! ## Peers of literals -/

/-- A `sockaddr_in` with these fields. -/
def sockaddr_in (order : ByteOrder) (sin_port sin_addr : Nat) : SockAddr :=
  ⟨AF_INET, (inMemory16 order sin_port ++ inMemory order sin_addr).map UInt8.ofNat ++
    List.replicate 8 0⟩

/-- The bytes of a word, from the highest to the lowest. -/
def wordBytes (word : Nat) : Vector UInt8 4 :=
  #v[.ofNat (word / 2 ^ 24 % 256), .ofNat (word / 2 ^ 16 % 256), .ofNat (word / 2 ^ 8 % 256),
    .ofNat (word % 256)]

theorem wordBytes_toNat (word : Nat) :
    (wordBytes word).toList.map (·.toNat) = octets word := by
  simp [wordBytes, octets]

/-- Literals put the port and the address into the order of the network. -/
theorem sockaddr_in_literals (order : ByteOrder) {port : Nat} (hport : port ≤ 65535)
    (word : Nat) :
    sockaddr_in order (ipport order port) (host_to_net order word) =
      (Peer.ip4 (.ofNat port) (wordBytes word) (Vector.replicate 8 0)).sockaddr := by
  have hmod : port % 65536 = port := Nat.mod_eq_of_lt (by omega)
  unfold sockaddr_in
  rw [inMemory16_ipport order hport, inMemory_host_to_net]
  simp [Peer.sockaddr, htons, wordBytes, octets, hmod]

/-- The literal is the word of the address in the order of the network. -/
theorem exists_word_of_ip4 {order : ByteOrder} {t : List Char} {addr : Nat}
    (h : ip4 order (cstr t) = some (some addr)) :
    ∃ word, word < 2 ^ 32 ∧ addr = host_to_net order word := by
  rcases inet_addr_impl_cases order t 0 with ⟨r, htaken⟩ | hrefused
  · have hsame := taken_any htaken 0xFFFFFFFF
    obtain ⟨c1, c2, c3, c4, _, _, _, _, _, rfl⟩ := taken_parts htaken
    have haddr : host_to_net order (orOfShifts c1 c2 c3 c4) = addr := by
      simpa [ip4, is_valid_ip4addr, inet_aton, inet_aton_impl, htaken, hsame] using h
    exact ⟨_, BitVec.isLt _, haddr.symm⟩
  · simp [ip4, is_valid_ip4addr, inet_aton_impl, hrefused] at h

/-- A peer whose address and port were written as literals is accepted under this port and
under a text that is read as this address. The text is the literal's own one exactly when
that is a canonical quad. -/
theorem a_peer_of_literals_comes_back (order : ByteOrder) {t : List Char} {addr : Nat}
    (h : ip4 order (cstr t) = some (some addr)) {port : Nat} (hport : port ≤ 65535)
    (s : TcpServerSocket) (client_fd_raw : Nat) (client_addr : SockAddr) :
    ∃ client, (s.await_peer client_fd_raw client_addr
        (sockaddr_in order (ipport order port) addr)).newest = some client ∧
      client.port = port ∧ ReadBack order client.peer_address.toList addr ∧
      (client.peer_address.toList = t ↔ ∃ q : Quad, t = q.text) := by
  obtain ⟨word, hword, rfl⟩ := exists_word_of_ip4 h
  have hmod : port % 65536 = port := Nat.mod_eq_of_lt (by omega)
  obtain ⟨q, hq⟩ := exists_quad (Vector.length_toList : (wordBytes word).toList.length = 4)
  have hqword : q.word = word := by
    apply octets_inj q.word_lt hword
    rw [q.octets_word, hq, wordBytes_toNat]
  rw [sockaddr_in_literals order hport, TcpServerSocket.newest_await_peer]
  refine ⟨_, rfl, ?_, ?_, ?_⟩
  · simp [TcpClient.of_socket, Peer.port, hmod]
  · show ReadBack order (inet_ntoa (wordBytes word).toList).toList (host_to_net order word)
    rw [inet_ntoa_quad hq, ← hqword]
    exact readBack_quad order q
  · show (inet_ntoa (wordBytes word).toList).toList = t ↔ _
    constructor
    · intro ht
      exact ⟨q, ht.symm.trans (inet_ntoa_quad hq)⟩
    · rintro ⟨q', rfl⟩
      -- two quads of one address have the same bytes, and these have one text
      have hsame := (readBack_quad order q').ip4
      rw [h, Option.some.injEq, Option.some.injEq] at hsame
      have hword' := host_to_net_inj order hword q'.word_lt hsame
      apply inet_ntoa_quad
      rw [wordBytes_toNat, hword', q'.octets_word]

/-- An address in octal and a port. -/
theorem a_peer_of_octal_literals_comes_back :
    ∃ client, (TcpServerSocket.listening.await_peer 5 ⟨0, []⟩
        (sockaddr_in .little (ipport .little 8080) 0x0100007F)).newest = some client ∧
      client.port = 8080 ∧ ReadBack .little client.peer_address.toList 0x0100007F ∧
      (client.peer_address.toList = "0177.1".toList ↔ ∃ q : Quad, "0177.1".toList = q.text) := by
  have hliteral : ip4 .little (cstr "0177.1".toList) = some (some 0x0100007F) := by decide +kernel
  exact a_peer_of_literals_comes_back .little hliteral (by decide) _ 5 ⟨0, []⟩

end rmrf.net
