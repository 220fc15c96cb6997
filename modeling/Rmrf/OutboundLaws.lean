-- The laws of a client that connects: which candidates its constructor tries and keeps,
-- and what the client knows of its own side when it is made.
import Rmrf.OutboundConnect

namespace rmrf.net

namespace Outbound

/-! ## Two orders of the same addresses -/

/-- As far as they are reached, and get a socket, the addresses of the two lists are the
same. -/
def Agree (sys : System) (n : Nat) (list other : List SockAddr) : Prop :=
  ∀ k a b, list[k]? = some a → other[k]? = some b →
    (∀ j < k, ∀ c, list[j]? = some c → ¬ Succeeds sys (n + j) c) →
    sys.candidate_socket (n + k) a.sa_family ≥ 0 → b = a

theorem agree_cons (sys : System) (n : Nat) (a b : SockAddr) (list other : List SockAddr) :
    Agree sys n (a :: list) (b :: other) ↔
      (sys.candidate_socket n a.sa_family ≥ 0 → b = a) ∧
        (¬ Succeeds sys n a → Agree sys (n + 1) list other) := by
  constructor
  · intro h
    refine ⟨h 0 a b rfl rfl (by simp), ?_⟩
    intro ha k c d hc hd hfails hsocket
    rw [Nat.add_right_comm, Nat.add_assoc] at hsocket
    apply h (k + 1) c d hc hd _ hsocket
    intro j hj e he
    cases j with
    | zero => exact Option.some.inj he ▸ ha
    | succ j =>
      have hfail := hfails j (Nat.lt_of_succ_lt_succ hj) e he
      rwa [Nat.add_right_comm, Nat.add_assoc] at hfail
  · rintro ⟨hfirst, hrest⟩ k c d hc hd hfails hsocket
    cases k with
    | zero =>
      cases hc
      cases hd
      exact hfirst hsocket
    | succ k =>
      have ha := hfails 0 (Nat.succ_pos k) a rfl
      rw [← Nat.add_assoc, Nat.add_right_comm] at hsocket
      apply hrest ha k c d hc hd _ hsocket
      intro j hj e he
      have hfail := hfails (j + 1) (Nat.succ_lt_succ hj) e he
      rwa [← Nat.add_assoc, Nat.add_right_comm] at hfail

/-- What stands behind them in both lists makes no difference. -/
theorem agree_append {sys : System} {n : Nat} {list other : List SockAddr}
    (hlen : other.length = list.length) (behind : List SockAddr) :
    Agree sys n (list ++ behind) (other ++ behind) ↔ Agree sys n list other := by
  constructor
  · intro h k a b ha hb hfails hsocket
    have hk := (List.getElem?_eq_some_iff.mp ha).1
    refine h k a b ?_ ?_ ?_ hsocket
    · rwa [List.getElem?_append_left hk]
    · rwa [List.getElem?_append_left (by omega)]
    · intro j hj c hc
      rw [List.getElem?_append_left (by omega)] at hc
      exact hfails j hj c hc
  · intro h k a b ha hb hfails hsocket
    by_cases hk : k < list.length
    · rw [List.getElem?_append_left (by omega)] at ha hb
      refine h k a b ha hb ?_ hsocket
      intro j hj c hc
      apply hfails j hj c
      rwa [List.getElem?_append_left (by omega)]
    · rw [List.getElem?_append_right (by omega)] at ha hb
      rw [hlen, ha] at hb
      exact (Option.some.inj hb).symm

/-- Where a socket is had, the call of `connect` shows the address. -/
theorem head_attempts {sys : System} {n : Nat} {a b : SockAddr} {list other : List SockAddr}
    (hsocket : sys.candidate_socket n a.sa_family ≥ 0) (hfamily : b.sa_family = a.sa_family)
    (h : attempts sys n (b :: other) = attempts sys n (a :: list)) : b = a := by
  have hsocket' : sys.candidate_socket n b.sa_family ≥ 0 := hfamily ▸ hsocket
  simp only [attempts, if_pos hsocket, if_pos hsocket'] at h
  injection (List.cons.inj (List.cons.inj h).2).1

/-- An address that gets no socket is not seen, and does not succeed. -/
theorem succeeds_congr {sys : System} {n : Nat} {a b : SockAddr}
    (hfamily : b.sa_family = a.sa_family)
    (h : sys.candidate_socket n a.sa_family ≥ 0 → b = a) :
    failed_attempt sys n b = failed_attempt sys n a ∧ (Succeeds sys n b ↔ Succeeds sys n a) := by
  by_cases hsocket : sys.candidate_socket n a.sa_family ≥ 0
  · rw [h hsocket]
    exact ⟨rfl, Iff.rfl⟩
  · unfold failed_attempt Succeeds
    rw [hfamily, if_neg hsocket, if_neg hsocket]
    exact ⟨rfl, iff_of_false (fun hb => hsocket hb.1) (fun ha => hsocket ha.1)⟩

/-- Two lists with the same families are tried with the same calls exactly when they agree. -/
theorem attempts_eq_iff {sys : System} {n : Nat} {list other : List SockAddr}
    (hfamilies : other.map (·.sa_family) = list.map (·.sa_family)) :
    attempts sys n other = attempts sys n list ↔ Agree sys n list other := by
  induction list generalizing n other with
  | nil =>
    rw [List.map_eq_nil_iff.mp hfamilies]
    simp [Agree]
  | cons a list ih =>
    cases other with
    | nil => cases hfamilies
    | cons b other =>
      rw [List.map_cons, List.map_cons] at hfamilies
      obtain ⟨hfamily, hrest⟩ := List.cons.inj hfamilies
      rw [agree_cons, ← ih hrest]
      constructor
      · intro h
        have hfirst := fun hsocket => head_attempts hsocket hfamily h
        obtain ⟨hcalls, hsucceeds⟩ := succeeds_congr hfamily hfirst
        refine ⟨hfirst, ?_⟩
        intro ha
        rw [attempts_cons_of_fails (hsucceeds.not.mpr ha), attempts_cons_of_fails ha, hcalls] at h
        exact List.append_cancel_left h
      · rintro ⟨hfirst, hrest⟩
        obtain ⟨hcalls, hsucceeds⟩ := succeeds_congr hfamily hfirst
        by_cases ha : Succeeds sys n a
        · rw [hfirst ha.1, attempts_cons_of_succeeds ha, attempts_cons_of_succeeds ha]
        · rw [attempts_cons_of_fails (hsucceeds.not.mpr ha), attempts_cons_of_fails ha, hcalls,
            hrest ha]

/-- Lists that agree have the same first success. -/
theorem first_success_of_agree {sys : System} {n : Nat} {list other : List SockAddr}
    (hfamilies : other.map (·.sa_family) = list.map (·.sa_family))
    (h : Agree sys n list other) : first_success sys n other = first_success sys n list := by
  induction list generalizing n other with
  | nil => rw [List.map_eq_nil_iff.mp hfamilies]
  | cons a list ih =>
    cases other with
    | nil => cases hfamilies
    | cons b other =>
      rw [List.map_cons, List.map_cons] at hfamilies
      obtain ⟨hfamily, htail⟩ := List.cons.inj hfamilies
      obtain ⟨hfirst, hrest⟩ := (agree_cons ..).mp h
      have hsucceeds := (succeeds_congr hfamily hfirst).2
      unfold first_success
      by_cases ha : Succeeds sys n a
      · rw [if_pos (hsucceeds.mpr ha), if_pos ha, hfirst ha.1]
      · rw [if_neg (hsucceeds.not.mpr ha), if_neg ha, ih htail (hrest ha)]

/-! ## The order of the candidates -/

/-- The order that is wanted: the IPv6 addresses before the IPv4 ones, each as they came. -/
def preferred (results : List AddrInfo) : List SockAddr :=
  addresses AF_INET6 results ++ addresses AF_INET results

/-- The addresses that `connect` was called with. -/
def connected_to (o : Outbound) : List SockAddr := o.calls.filterMap SysCall.address

/-- The addresses are tried in the wanted order, each once, and the socket of the first that
succeeds is kept. -/
structure SelectsInOrder (sys : System) (results : List AddrInfo) (made : Construction) : Prop where
  tried : (ends made).tried = attempts sys 0 (preferred results)
  once : (ends made).connected_to.Sublist (preferred results)
  keeps : ∀ n a, first_success sys 0 (preferred results) = some (n, a) →
    ∃ o, made = .ok () o ∧ o.client.net_socket = sys.candidate_socket n a.sa_family
  throws : (∃ msg o, made = .error (.netio_exception msg) o) ↔
    ∀ n a, (preferred results)[n]? = some a → ¬ Succeeds sys n a

/-- The calls that try the addresses connect to each of them once at most. -/
theorem attempts_sublist (sys : System) (n : Nat) (list : List SockAddr) :
    ((attempts sys n list).filterMap SysCall.address).Sublist list := by
  induction list generalizing n with
  | nil => exact List.Sublist.refl []
  | cons a rest ih =>
    by_cases ha : Succeeds sys n a
    · rw [attempts_cons_of_succeeds ha]
      exact (List.nil_sublist rest).cons_cons a
    · rw [attempts_cons_of_fails ha, List.filterMap_append]
      unfold failed_attempt
      split_ifs
      · exact (ih (n + 1)).cons_cons a
      · exact (ih (n + 1)).cons a

theorem connected_to_eq (o : Outbound) :
    o.connected_to = o.tried.filterMap SysCall.address := by
  unfold connected_to tried
  rw [List.filterMap_filter]
  apply List.filterMap_congr
  intro c _
  cases c <;> rfl

theorem families_order (results : List AddrInfo) :
    (order results).map (·.sa_family) = (preferred results).map (·.sa_family) := by
  have hfamily : ∀ a ∈ addresses AF_INET6 results, a.sa_family = AF_INET6 :=
    fun _ ha => sa_family_of_mem_addresses ha
  have hfamilies := List.map_congr_left hfamily
  rw [order, preferred, List.map_append, List.map_append, List.map_reverse, hfamilies,
    List.map_const', List.reverse_replicate]

/-- The code tries the addresses as it is wanted when the IPv6 ones are the same from both
ends. -/
theorem attempts_order_iff (sys : System) (results : List AddrInfo) :
    attempts sys 0 (order results) = attempts sys 0 (preferred results) ↔
      Agree sys 0 (addresses AF_INET6 results) (addresses AF_INET6 results).reverse := by
  rw [attempts_eq_iff (families_order results)]
  exact agree_append (List.length_reverse) _

theorem no_success_iff (sys : System) (list : List SockAddr) :
    first_success sys 0 list = none ↔ ∀ n a, list[n]? = some a → ¬ Succeeds sys n a := by
  simp only [first_success_eq_none_iff, Nat.zero_add]

theorem selects_of_agree {sys : System} {peer_address service_or_port : String} {family : Family}
    (hfamily : family = AF_INET ∨ family = AF_INET6) (hsocket : sys.socket family ≥ 0)
    {results : List AddrInfo}
    (hresults : sys.getaddrinfo peer_address service_or_port family = .ok results)
    (hagree : Agree sys 0 (preferred results) (order results))
    (hread : first_success sys 0 (preferred results) = none ∨ Readable sys) :
    SelectsInOrder sys results (of_family sys peer_address service_or_port family) := by
  obtain ⟨htried, hend⟩ := of_family.spec hfamily hsocket hresults
  rw [(attempts_eq_iff (families_order results)).mpr hagree] at htried
  rw [first_success_of_agree (families_order results) hagree] at hend
  have honce := attempts_sublist sys 0 (preferred results)
  rw [← htried, ← connected_to_eq] at honce
  cases hfind : first_success sys 0 (preferred results) with
  | none =>
    rw [hfind] at hend
    refine ⟨htried, honce, ?_, iff_of_true hend ((no_success_iff sys _).mp hfind)⟩
    simp [hfind]
  | some found =>
    obtain ⟨n, a⟩ := found
    have hreadable : Readable sys := hread.resolve_left (by simp [hfind])
    simp only [hfind, if_pos hreadable] at hend
    obtain ⟨o, hok, hkept, _⟩ := hend
    refine ⟨htried, honce, ?_, iff_of_false ?_ ?_⟩
    · intro n' a' hfind'
      rw [hfind] at hfind'
      cases hfind'
      exact ⟨o, hok, hkept⟩
    · simp [hok]
    · rw [← no_success_iff, hfind]
      simp

theorem selects_without_socket {sys : System} {peer_address service_or_port : String}
    {family : Family} (hfamily : family = AF_INET ∨ family = AF_INET6)
    (hsocket : ¬ sys.socket family ≥ 0) (results : List AddrInfo) :
    SelectsInOrder sys results (of_family sys peer_address service_or_port family) ↔
      preferred results = [] := by
  obtain ⟨o, hthrow, htried⟩ :=
    of_family_of_no_socket peer_address service_or_port hfamily hsocket
  rw [hthrow]
  constructor
  · intro hselects
    have hnone : attempts sys 0 (preferred results) = [] := hselects.tried.symm.trans htried
    cases hlist : preferred results with
    | nil => rfl
    | cons a rest =>
      rw [hlist] at hnone
      cases hnone
  · intro hnil
    have hconnects : o.connected_to = [] := by
      rw [connected_to_eq, htried]
      rfl
    refine ⟨?_, ?_, ?_, ?_⟩
    · rw [hnil]
      exact htried
    · rw [ends, hconnects]
      exact List.nil_sublist _
    · rw [hnil]
      intro n a hfind
      cases hfind
    · apply iff_of_true ⟨_, o, rfl⟩
      rw [hnil]
      intro n a hget
      cases hget

/-- The candidates are selected in the wanted order exactly when the first socket can be
had, the IPv6 addresses are the same from both ends as far as they are reached, and a client
that connects is not thrown away over a local address that `getsockname` has not given.
Without the first socket there must be no candidate at all. -/
theorem mirrored_ip6_results_are_selected_in_order (sys : System)
    (peer_address service_or_port : String) (family : Family)
    (hfamily : family = AF_INET ∨ family = AF_INET6) (results : List AddrInfo)
    (hresults : sys.getaddrinfo peer_address service_or_port family = .ok results) :
    SelectsInOrder sys results (of_family sys peer_address service_or_port family) ↔
      if sys.socket family ≥ 0 then
        Agree sys 0 (addresses AF_INET6 results) (addresses AF_INET6 results).reverse ∧
          ((∀ n a, (preferred results)[n]? = some a → ¬ Succeeds sys n a) ∨ Readable sys)
      else preferred results = [] := by
  by_cases hsocket : sys.socket family ≥ 0
  · rw [if_pos hsocket, ← attempts_order_iff]
    constructor
    · intro hselects
      obtain ⟨htried, hend⟩ := of_family.spec hfamily hsocket hresults
      refine ⟨htried.symm.trans hselects.tried, ?_⟩
      by_cases hreadable : Readable sys
      · exact Or.inr hreadable
      · -- without a local address that is read, each way through the loop throws
        apply Or.inl
        apply hselects.throws.mp
        simp only [if_neg hreadable] at hend
        split at hend
        · exact hend
        · exact hend
    · rintro ⟨hagree, hread⟩
      exact selects_of_agree hfamily hsocket hresults
        ((attempts_eq_iff (families_order results)).mp hagree)
        (hread.imp_left (no_success_iff sys _).mpr)
  · rw [if_neg hsocket]
    exact selects_without_socket hfamily hsocket results

/-- The result with the IPv6 address of 15 bytes zero and this last one. -/
def ip6_result (last : UInt8) : AddrInfo where
  ai_family := AF_INET6
  ai_addr := ⟨AF_INET6, List.replicate 21 0 ++ [last] ++ List.replicate 4 0⟩
  agrees := rfl
  whole T hT := by cases T <;> first | rfl | cases hT

/-- A system whose resolver gives two IPv6 addresses, and that connects to each. -/
def two_ip6_results : System where
  socket _ := 3
  getaddrinfo _ _ _ := .ok [ip6_result 1, ip6_result 2]
  gai_strerror _ := ""
  candidate_socket n _ := 4 + n
  connect _ _ := 0
  fcntl_getfl _ := 0
  getsockname := 0
  local_address := ⟨AF_INET6, htons 49152 ++ List.replicate 24 0⟩
  uninitialised := ⟨sockaddr_storage, 0⟩

/-- The second address is connected to, and the first one never. -/
theorem the_second_ip6_result_is_tried_first :
    (ends (of_family two_ip6_results "mail" "imap" AF_INET6)).connected_to =
        [(ip6_result 2).ai_addr] ∧
      ∀ results, two_ip6_results.getaddrinfo "mail" "imap" AF_INET6 = .ok results →
        preferred results = [(ip6_result 1).ai_addr, (ip6_result 2).ai_addr] ∧
          ¬ SelectsInOrder two_ip6_results results
            (of_family two_ip6_results "mail" "imap" AF_INET6) := by
  refine ⟨by decide, ?_⟩
  intro results hresults
  cases hresults
  refine ⟨by decide, ?_⟩
  intro hselects
  have htried := hselects.tried
  revert htried
  decide

/-- A single result is selected in order. -/
theorem one_ip6_result_is_selected_in_order :
    SelectsInOrder { two_ip6_results with getaddrinfo := fun _ _ _ => .ok [ip6_result 1] }
      [ip6_result 1]
      (of_family { two_ip6_results with getaddrinfo := fun _ _ _ => .ok [ip6_result 1] }
        "mail" "imap" AF_INET6) :=
  (mirrored_ip6_results_are_selected_in_order _ "mail" "imap" AF_INET6 (Or.inr rfl) _ rfl).mpr
    ⟨(attempts_order_iff _ _).mp rfl, Or.inr (Or.inl rfl)⟩

/-! ## The three constructors -/

/-- The constructors that connect, with what tells the peer's service. -/
inductive Entry
  | family (service_or_port : String) (ip_addr_family : Family)
  | service (service_or_port : String)
  | port (port : UInt16)

namespace Entry

def construct (sys : System) (peer_address : String) : Entry → Construction
  | .family service_or_port ip_addr_family =>
    of_family sys peer_address service_or_port ip_addr_family
  | .service service_or_port => of_service sys peer_address service_or_port
  | .port port_ => of_port sys peer_address port_

def service_or_port : Entry → String
  | .family service_or_port _ => service_or_port
  | .service service_or_port => service_or_port
  | .port port_ => toString port_.toNat

/-- The family that the body gets to see. -/
def ip_addr_family : Entry → Family
  | .family _ ip_addr_family => ip_addr_family
  | .service _ => AF_UNSPEC
  | .port _ => AF_UNSPEC

/-- The constructor that is given a family. -/
def GivesFamily (entry : Entry) : Prop :=
  ∃ service_or_port ip_addr_family, entry = .family service_or_port ip_addr_family

theorem construct_eq (sys : System) (peer_address : String) (entry : Entry) :
    entry.construct sys peer_address =
      of_family sys peer_address entry.service_or_port entry.ip_addr_family := by
  cases entry <;> rfl

end Entry

/-- A client can be connected: a family that is given is one of the two and gets its first
socket, one of the results leads to a connection when its turn comes, and its local address
can be had. -/
structure CanConnect (sys : System) (peer_address : String) (entry : Entry) : Prop where
  family : entry.GivesFamily → entry.ip_addr_family = AF_INET ∨ entry.ip_addr_family = AF_INET6
  socket : entry.GivesFamily → sys.socket entry.ip_addr_family ≥ 0
  resolved : ∃ results,
    sys.getaddrinfo peer_address entry.service_or_port entry.ip_addr_family = .ok results ∧
      ∃ n a, (order results)[n]? = some a ∧ Succeeds sys n a
  getsockname : sys.getsockname = 0

/-- The client holds a descriptor that was connected to an IPv4 or IPv6 address of the
resolver's. -/
def HoldsConnected (sys : System) (peer_address : String) (entry : Entry) (o : Outbound) : Prop :=
  ∃ results n a,
    sys.getaddrinfo peer_address entry.service_or_port entry.ip_addr_family = .ok results ∧
    a ∈ preferred results ∧ Succeeds sys n a ∧
    o.client.net_socket = sys.candidate_socket n a.sa_family ∧
    .connect o.client.net_socket a ∈ o.calls

/-- The client is made, holds a connected descriptor, and knows its port. -/
def EndsConnected (sys : System) (peer_address : String) (entry : Entry) : Prop :=
  ∃ o, entry.construct sys peer_address = .ok () o ∧ HoldsConnected sys peer_address entry o ∧
    o.client.port = sys.local_address.port

/-- Without a family the constructor asks for one that its body refuses. -/
theorem givesFamily_of_endsConnected {sys : System} {peer_address : String} {entry : Entry}
    (h : EndsConnected sys peer_address entry) : entry.GivesFamily := by
  have hunspec : ¬ (AF_UNSPEC = AF_INET ∨ AF_UNSPEC = AF_INET6) := by decide
  obtain ⟨o, hok, _⟩ := h
  rw [Entry.construct_eq] at hok
  cases entry with
  | family service_or_port ip_addr_family => exact ⟨service_or_port, ip_addr_family, rfl⟩
  | service service_or_port =>
    obtain ⟨o', hthrow, _⟩ := of_family_of_invalid sys peer_address service_or_port hunspec
    exact absurd (hok.symm.trans hthrow) (by simp)
  | port port_ =>
    obtain ⟨o', hthrow, _⟩ :=
      of_family_of_invalid sys peer_address (toString port_.toNat) hunspec
    exact absurd (hok.symm.trans hthrow) (by simp)

/-- The code tries no other addresses than those that are wanted. -/
theorem order_perm_preferred (results : List AddrInfo) : (order results).Perm (preferred results) :=
  (List.reverse_perm _).append_right _

/-- With a family, a client that can be connected is made, and its port is 0. -/
theorem connects_of_givesFamily {sys : System} {peer_address : String} {entry : Entry}
    (h : CanConnect sys peer_address entry) (hgives : entry.GivesFamily) :
    ∃ o, entry.construct sys peer_address = .ok () o ∧
      HoldsConnected sys peer_address entry o ∧ o.client.port = 0 := by
  obtain ⟨results, hresults, n, a, hget, hsucceeds⟩ := h.resolved
  obtain ⟨htried, hend⟩ := of_family.spec (h.family hgives) (h.socket hgives) hresults
  have hreadable : Readable sys := Or.inl h.getsockname
  cases hfind : first_success sys 0 (order results) with
  | none => exact absurd hsucceeds ((no_success_iff sys _).mp hfind n a hget)
  | some found =>
    obtain ⟨k, b⟩ := found
    obtain ⟨hsucceeds', hmem, hcall⟩ := first_success_eq_some hfind
    simp only [hfind, if_pos hreadable] at hend
    obtain ⟨o, hok, hkept, hport⟩ := hend
    rw [hok] at htried
    rw [← htried, ← hkept] at hcall
    rw [Entry.construct_eq]
    refine ⟨o, hok, ⟨results, k, b, hresults, ?_, hsucceeds', hkept, ?_⟩, hport h.getsockname⟩
    · exact (order_perm_preferred results).mem_iff.mp hmem
    · exact List.mem_of_mem_filter hcall

/-- A client that can be connected ends so that it knows its port exactly when its
constructor is given a family and the port is 0. -/
theorem a_client_knows_only_the_port_zero (sys : System) (peer_address : String) (entry : Entry)
    (h : CanConnect sys peer_address entry) :
    EndsConnected sys peer_address entry ↔ entry.GivesFamily ∧ sys.local_address.port = 0 := by
  constructor
  · intro hends
    have hgives := givesFamily_of_endsConnected hends
    refine ⟨hgives, ?_⟩
    obtain ⟨o, hok, _, hport⟩ := hends
    obtain ⟨o', hok', _, hzero⟩ := connects_of_givesFamily h hgives
    rw [hok] at hok'
    cases hok'
    rw [← hport, hzero]
  · rintro ⟨hgives, hlocal⟩
    obtain ⟨o, hok, hholds, hzero⟩ := connects_of_givesFamily h hgives
    exact ⟨o, hok, hholds, hzero.trans hlocal.symm⟩

theorem two_ip6_results_connect (entry : Entry)
    (h : entry.GivesFamily → entry.ip_addr_family = AF_INET6) :
    CanConnect two_ip6_results "mail" entry :=
  ⟨fun hgives => Or.inr (h hgives), fun _ => (by decide : (3 : Int) ≥ 0),
    ⟨_, rfl, 0, _, rfl, by decide⟩, rfl⟩

/-- A client that is given a family does not learn its port 49152, and one that is not given
any is not made. -/
theorem no_constructor_learns_the_port :
    (CanConnect two_ip6_results "mail" (.family "imap" AF_INET6) ∧
      ¬ EndsConnected two_ip6_results "mail" (.family "imap" AF_INET6)) ∧
    (CanConnect two_ip6_results "mail" (.service "imap") ∧
      ¬ EndsConnected two_ip6_results "mail" (.service "imap")) ∧
    CanConnect two_ip6_results "mail" (.port 143) ∧
      ¬ EndsConnected two_ip6_results "mail" (.port 143) := by
  have hfamily := two_ip6_results_connect (.family "imap" AF_INET6) (fun _ => rfl)
  refine ⟨⟨hfamily, ?_⟩, ⟨two_ip6_results_connect _ (by simp [Entry.GivesFamily]), ?_⟩,
    two_ip6_results_connect _ (by simp [Entry.GivesFamily]), ?_⟩
  · rintro ⟨o, hok, _, hport⟩
    obtain ⟨o', hok', _, hzero⟩ := connects_of_givesFamily hfamily ⟨_, _, rfl⟩
    rw [hok] at hok'
    cases hok'
    rw [hzero] at hport
    exact absurd hport (by decide)
  · intro hends
    simpa [Entry.GivesFamily] using givesFamily_of_endsConnected hends
  · intro hends
    simpa [Entry.GivesFamily] using givesFamily_of_endsConnected hends

/-- Where the local port is 0, the 0 is right. -/
theorem a_client_at_port_zero_knows_its_port :
    EndsConnected { two_ip6_results with local_address := ⟨AF_INET6, List.replicate 26 0⟩ } "mail"
      (.family "imap" AF_INET6) :=
  (a_client_knows_only_the_port_zero _ "mail" (.family "imap" AF_INET6)
    ⟨fun _ => Or.inr rfl, fun _ => by decide, ⟨_, rfl, 0, _, rfl, by decide⟩, rfl⟩).mpr
    ⟨⟨_, _, rfl⟩, by decide⟩

end Outbound

end rmrf.net
