-- The descriptors of the constructor that connects to a peer. Whatever the system answers
-- and however the constructor ends, it uses and closes what it has opened, and all that it
-- leaves open is the socket of the client that it has made.
import Rmrf.Handles
import Rmrf.OutboundConnect
import Rmrf.Stateful

open handles stateful

namespace rmrf.net

/-- The descriptor that an `auto_fd` closes when it ends. -/
def owned (fd : Int) : Multiset Int := if fd ≥ 0 then {fd} else 0

theorem owned_of_valid {fd : Int} (h : fd ≥ 0) : owned fd = {fd} := if_pos h

theorem owned_of_invalid {fd : Int} (h : ¬ fd ≥ 0) : owned fd = 0 := if_neg h

/-- What a call that gives a descriptor does to the table. -/
def opened (fd : Int) : List (Act Int) := if fd ≥ 0 then [.opens fd] else []

theorem turns_opened (fd : Int) (table : Multiset Int) :
    Turns (opened fd) table (table + owned fd) := by
  unfold opened owned
  split_ifs
  · rw [Multiset.add_comm]
    exact turns_opens fd table
  · rw [add_zero]
    exact turns_nil table

namespace Outbound

/-- What a call of the system does to the table of the descriptors. -/
def acts : SysCall → List (Act Int)
  | .socket _ fd => opened fd
  | .getaddrinfo _ _ _ => []
  | .candidate_socket _ fd => opened fd
  | .connect fd _ => [.uses fd]
  | .fcntl_getfl fd => [.uses fd]
  | .fcntl_setfl fd _ => [.uses fd]
  | .getsockname fd => [.uses fd]
  | .close fd => [.closes fd]

/-- The client has this socket, and these descriptors are what its calls have left open. -/
def Stands (fd : Int) (table : Multiset Int) (o : Outbound) : Prop :=
  o.client.net_socket = fd ∧ Turns (o.calls.flatMap acts) 0 table

/-- All that is open is the socket that the client has. -/
def Accounts (o : Outbound) : Prop :=
  Stands o.client.net_socket (owned o.client.net_socket) o

variable {sys : System} {fd : Int} {table : Multiset Int}

theorem Stands.accounts {o : Outbound} (h : Stands fd (owned fd) o) : Accounts o := by
  obtain ⟨rfl, hturns⟩ := h
  exact ⟨rfl, hturns⟩

theorem call_ensures {after : Multiset Int} {E : Exn → Outbound → Prop} (c : SysCall)
    (hacts : Turns (acts c) table after) :
    Ensures (Stands fd table) (call c) (fun _ => Stands fd after) E := by
  rintro o ⟨hfd, hturns⟩
  refine ⟨hfd, ?_⟩
  simp only [List.flatMap_append, List.flatMap_singleton]
  exact hturns.append hacts

/-- The old socket is closed, and the new one is the client's. -/
theorem assign_net_socket_ensures {E : Exn → Outbound → Prop} (old fd : Int) :
    Ensures (Stands old (owned old + owned fd)) (assign_net_socket fd)
      (fun _ => Stands fd (owned fd)) E := by
  have hmodify : Ensures (Stands old (owned fd))
      (modify fun o => { o with client.net_socket := fd } : Constructor Unit)
      (fun _ => Stands fd (owned fd)) E := fun o ho => ⟨rfl, ho.2⟩
  unfold assign_net_socket
  apply Ensures.get_bind
  intro o
  apply Ensures.ite
  · intro hold
    refine Ensures.bind (Q := fun _ => Stands old (owned fd)) ?_ (fun _ => hmodify)
    rintro o' ⟨ho', rfl⟩
    have hfd := ho'.1
    rw [hfd] at hold ⊢
    rw [owned_of_valid hold, Multiset.singleton_add] at ho'
    exact call_ensures (E := E) (.close old) (turns_closes old (owned fd)) o' ho'
  · intro hold
    refine hmodify.imp ?_ (fun _ _ h => h) (fun _ _ h => h)
    rintro o' ⟨ho', rfl⟩
    rw [ho'.1] at hold
    rw [owned_of_invalid hold, zero_add] at ho'
    exact ho'

theorem set_port_ensures {E : Exn → Outbound → Prop} (port : Nat) :
    Ensures (Stands fd table) (set_port port) (fun _ => Stands fd table) E :=
  fun _ ho => ho

theorem read_local_port_ensures (hfd : fd ≥ 0) :
    Ensures (Stands fd (owned fd)) (read_local_port sys) (fun _ => Stands fd (owned fd))
      (fun _ => Stands fd (owned fd)) := by
  have huses : Turns (acts (.getsockname fd)) (owned fd) (owned fd) := by
    rw [owned_of_valid hfd]
    exact turns_uses (Multiset.mem_singleton_self fd)
  have hkeep : ∀ {α : Type} (x : Except Exn α), Ensures (Stands fd (owned fd))
      (MonadExcept.ofExcept x : Constructor α) (fun _ => Stands fd (owned fd))
      (fun _ => Stands fd (owned fd)) :=
    fun x => ensures_ofExcept (fun _ _ _ ho => ho) (fun _ _ _ ho => ho)
  unfold read_local_port
  apply Ensures.get_bind
  intro o
  refine Ensures.bind (Q := fun _ => Stands fd (owned fd)) ?_ ?_
  · rintro o' ⟨ho', rfl⟩
    rw [ho'.1]
    exact call_ensures (E := fun _ => Stands fd (owned fd)) _ huses o' ho'
  intro _
  apply Ensures.ite
  · intro _
    refine (hkeep _).bind ?_
    intro sa_local
    apply Ensures.ite
    · exact fun _ => (hkeep _).bind fun _ => set_port_ensures _
    · intro _
      apply Ensures.ite
      · exact fun _ => (hkeep _).bind fun _ => set_port_ensures _
      · exact fun _ => ensures_throw fun _ ho => ho
  · exact fun _ _ ho => ho

/-- The flags are read and set through the socket that the client has. -/
theorem set_nonblocking_ensures {E : Exn → Outbound → Prop} (hfd : fd ≥ 0) :
    Ensures (Stands fd (owned fd)) (set_nonblocking sys) (fun _ => Stands fd (owned fd)) E := by
  have huses : Turns [.uses fd] (owned fd) (owned fd) := by
    rw [owned_of_valid hfd]
    exact turns_uses (Multiset.mem_singleton_self fd)
  unfold set_nonblocking
  apply Ensures.get_bind
  intro o
  refine Ensures.bind (Q := fun _ => fun o' => Stands fd (owned fd) o' ∧ o.client.net_socket = fd)
    ?_ ?_
  · rintro o' ⟨ho', rfl⟩
    refine ⟨?_, ho'.1⟩
    rw [ho'.1]
    exact call_ensures (E := E) (.fcntl_getfl fd) huses o' ho'
  · rintro _ o' ⟨ho', hsocket⟩
    rw [hsocket]
    exact call_ensures (E := E) (.fcntl_setfl fd _) huses o' ho'

/-- Each pass closes the socket of a candidate that does not connect, and the socket of the
one that does replaces the first. -/
theorem connect_loop_ensures (n : Nat) (candidates : List SocketAddr) :
    Ensures (Stands fd (owned fd)) (connect_loop sys n candidates)
      (fun _ o => Accounts o ∧ o.client.net_socket ≥ 0) (fun _ => Accounts) := by
  induction candidates generalizing n with
  | nil => exact ensures_throw fun _ ho => ho.accounts
  | cons c rest ih =>
    unfold connect_loop
    refine Ensures.bind
      (Q := fun _ => Stands fd (owned fd + owned (sys.candidate_socket n c.family)))
      (call_ensures _ (turns_opened _ _)) ?_
    intro _
    apply Ensures.ite
    · intro hvalid
      -- the socket of the candidate is open beside that of the client
      have huses : ∀ address, Turns (acts (.connect (sys.candidate_socket n c.family) address))
          (owned fd + owned (sys.candidate_socket n c.family))
          (owned fd + owned (sys.candidate_socket n c.family)) := by
        intro address
        rw [owned_of_valid hvalid]
        exact turns_uses (by simp)
      refine (call_ensures _ (huses _)).bind ?_
      intro _
      apply Ensures.ite
      · intro _
        refine (assign_net_socket_ensures fd _).bind ?_
        intro _
        refine (set_nonblocking_ensures hvalid).bind ?_
        intro _
        refine (read_local_port_ensures hvalid).imp (fun _ ho => ho) ?_ (fun _ _ ho => ho.accounts)
        rintro _ o ho
        exact ⟨ho.accounts, ho.1 ▸ hvalid⟩
      · intro _
        refine Ensures.bind (Q := fun _ => Stands fd (owned fd)) ?_ (fun _ => ih (n + 1))
        apply call_ensures
        rw [owned_of_valid hvalid, Multiset.add_comm, Multiset.singleton_add]
        exact turns_closes _ _
    · intro hvalid
      rw [owned_of_invalid hvalid, add_zero]
      exact ih (n + 1)

theorem resolve_ensures (peer_address service_or_port : String) (family : Family) :
    Ensures (Stands fd (owned fd)) (resolve sys peer_address service_or_port family)
      (fun _ => Stands fd (owned fd)) (fun _ => Accounts) := by
  unfold resolve
  refine Ensures.bind (Q := fun _ => Stands fd (owned fd)) (call_ensures _ (turns_nil _)) ?_
  intro _
  split
  · exact ensures_throw fun _ ho => ho.accounts
  · exact ensures_ofExcept (fun _ _ _ ho => ho) (fun _ _ _ ho => ho.accounts)

theorem request_socket_ensures (family : Family) :
    Ensures (Stands (-1) 0) (request_socket sys family)
      (fun _ o => sys.socket family ≥ 0 ∧
        Stands (sys.socket family) (owned (sys.socket family)) o)
      (fun _ => Accounts) := by
  have hstart : ∀ o, Stands (-1) 0 o → Accounts o := by
    rintro o ⟨hfd, hturns⟩
    exact Stands.accounts ⟨hfd, hturns⟩
  unfold request_socket
  apply Ensures.ite
  · exact fun _ => Ensures.bind (Q := fun _ _ => False) (ensures_throw hstart)
      (fun _ _ h => h.elim)
  · intro _
    refine Ensures.bind (Q := fun _ => Stands (-1) (0 + owned (sys.socket family)))
      (call_ensures _ (turns_opened _ _)) ?_
    intro _
    refine (assign_net_socket_ensures (-1) (sys.socket family)).bind ?_
    intro _
    apply Ensures.ite
    · exact fun _ => ensures_throw fun _ ho => ho.accounts
    · exact fun hvalid => (ensures_pure ()).imp (fun _ ho => ⟨not_not.mp hvalid, ho⟩)
        (fun _ _ h => h) (fun _ _ h => h)

/-- The members as they are before the body, with nothing open. -/
theorem stands_members (peer_address : String) :
    Stands (-1) 0 (members peer_address) := ⟨rfl, turns_nil 0⟩

theorem body_ensures (peer_address service_or_port : String) (family : Family) :
    Ensures (Stands (-1) 0) (body sys peer_address service_or_port family)
      (fun _ o => Accounts o ∧ o.client.net_socket ≥ 0 ∧
        o.client.io = ⟨o.client.net_socket, ev.READ, true⟩)
      (fun _ => Accounts) := by
  unfold body
  refine (request_socket_ensures family).bind ?_
  rintro _ o ⟨_, ho⟩
  revert o
  show Ensures (Stands (sys.socket family) (owned (sys.socket family))) _ _ _
  refine (resolve_ensures peer_address service_or_port family).bind ?_
  intro candidates
  refine (connect_loop_ensures 0 candidates).bind ?_
  rintro _ o ⟨ho, hvalid⟩
  exact ⟨ho, hvalid, rfl⟩

/-- A constructor that throws closes the socket that it has had so far. -/
theorem unwind_ensures {P : Outbound → Prop} {Q : Unit → Outbound → Prop}
    {h : Constructor Unit} (hh : Ensures P h Q (fun _ => Accounts)) :
    Ensures P (unwind h) Q (fun _ => Stands (-1) 0) := by
  refine hh.tryCatch ?_
  intro e
  refine Ensures.bind (Q := fun _ => Stands (-1) 0) ?_ (fun _ => ensures_throw fun _ ho => ho)
  intro o ho
  have hnone : owned (-1) = 0 := owned_of_invalid (by decide)
  apply assign_net_socket_ensures o.client.net_socket (-1) o
  rw [hnone, add_zero]
  exact ho

/-- However the constructor ends, each of its calls is on a descriptor that is open, and the
descriptors of others stay as they are. A client that it has made has one more open, which it
watches; a constructor that throws has closed all that it has opened. -/
theorem a_constructor_leaves_only_its_socket_open (sys : System)
    (peer_address service_or_port : String) (family : Family) (others : Multiset Int) :
    match of_family sys peer_address service_or_port family with
    | .ok _ o => o.client.net_socket ≥ 0 ∧ o.client.io = ⟨o.client.net_socket, ev.READ, true⟩ ∧
        Turns (o.calls.flatMap acts) others (o.client.net_socket ::ₘ others)
    | .error _ o => o.client.net_socket = -1 ∧
        Turns (o.calls.flatMap acts) others others := by
  have hbody := @body_ensures sys peer_address service_or_port family
  have hends := unwind_ensures hbody (members peer_address) (stands_members peer_address)
  have hframe : ∀ {acts : List (Act Int)} {after : Multiset Int}, Turns acts 0 after →
      Turns acts others (after + others) := by
    intro acts after h
    have hturns := h.frame others
    rwa [zero_add] at hturns
  unfold of_family
  revert hends
  cases unwind (body sys peer_address service_or_port family) (members peer_address) with
  | ok _ o =>
    rintro ⟨⟨_, hturns⟩, hvalid, hio⟩
    rw [owned_of_valid hvalid] at hturns
    refine ⟨hvalid, hio, ?_⟩
    rw [← Multiset.singleton_add]
    exact hframe hturns
  | error e o =>
    rintro ⟨hfd, hturns⟩
    refine ⟨hfd, ?_⟩
    have hothers := hframe hturns
    rwa [zero_add] at hothers

end Outbound

end rmrf.net
