-- The TCP server: it counts the clients that it accepts, and each client's destructor
-- counts one off. The client lives as long as the listener's parameter, unless it has
-- deleted itself at the end of its stream.
import Rmrf.ClientStatements
import Rmrf.Destruction

open runs stateful

namespace rmrf.net

/-! ## The server and its run -/

/-- A client that the server accepted, and its descriptor. -/
structure Accepted where
  client_fd_raw : Nat
  world : World
deriving DecidableEq, Repr

/-- A call that waits for what it called. The listener and `in_data_cb` may run an event
loop. -/
inductive Waiting
  | client_listener (client : Nat)
  | in_data_cb (client : Nat)
deriving DecidableEq, Repr

/-- The clients stand in the order in which they were accepted, and the calls that wait
with the innermost first. -/
structure TcpServerSocket where
  number_of_connected_clients : UInt32
  clients : List Accepted
  waiting : List Waiting
deriving DecidableEq, Repr

namespace TcpServerSocket

/-- The server after its constructor. -/
def listening : TcpServerSocket := ⟨0, [], []⟩

/-- `client_destructed_cb` -/
def client_destructed_cb (number_of_connected_clients : UInt32) : UInt32 :=
  number_of_connected_clients - 1

/-- How often the client's destructor called `destructor_cb`. -/
def destructions (trace : List Effect) : Nat := trace.count (.destructor_cb .NO_ERROR)

/-- A descriptor that the kernel can give out: no client that lives has it. -/
def Free (s : TcpServerSocket) (fd : Nat) : Prop :=
  fd < 2 ^ 31 ∧ ∀ a ∈ s.clients, a.world.alive → a.client_fd_raw ≠ fd

instance (s : TcpServerSocket) (fd : Nat) : Decidable (s.Free fd) :=
  inferInstanceAs (Decidable (_ ∧ _))

/-- `await_raw_socket_incomming` up to its call of the listener. -/
def await_raw_socket_incomming (s : TcpServerSocket) (client_fd_raw : Nat) (address : String)
    (port : Nat) : TcpServerSocket where
  number_of_connected_clients := s.number_of_connected_clients + 1
  clients := s.clients ++
    [⟨client_fd_raw, TcpClient.of_socket true client_fd_raw address port⟩]
  waiting := .client_listener s.clients.length :: s.waiting

/-- Client `i` goes on in another world. The server hears of its destructions. -/
def settle (s : TcpServerSocket) (i : Nat) (a : Accepted) (w : World) : TcpServerSocket :=
  { s with
    number_of_connected_clients :=
      client_destructed_cb^[destructions w.trace - destructions a.world.trace]
        s.number_of_connected_clients
    clients := s.clients.set i { a with world := w } }

/-- A step of client `i`. Nobody but the listener's parameter owns a client, and what
waits for `in_data_cb` goes on only when that was called last. -/
def client_step (s : TcpServerSocket) (i : Nat) (t : TcpClient.Step) :
    Option TcpServerSocket := do
  let a ← s.clients[i]?
  let (o, w) ← TcpClient.step a.world t
  match t with
  | .destroy => none
  | .in_data_cb_returns _ | .in_data_cb_throws =>
    if s.waiting.head? = some (.in_data_cb i) then
      some { s.settle i a w with waiting := s.waiting.tail }
    else none
  | _ =>
    if o = .in_data_cb then some { s.settle i a w with waiting := .in_data_cb i :: s.waiting }
    else some (s.settle i a w)

/-- The end of the listener's call, and of the life of its parameter. -/
def listener_ends (s : TcpServerSocket) : Option TcpServerSocket :=
  match s.waiting with
  | .client_listener i :: rest => do
    let a ← s.clients[i]?
    let (_, w) := TcpClient.call (do TcpClient.destruct; return .returned) a.world
    some { s.settle i a w with waiting := rest }
  | _ => none

/-- What can happen next to the server. -/
inductive Step
  | accept (client_fd_raw : Nat) (address : String) (port : Nat)
  | accept_fails
  | client (i : Nat) (t : TcpClient.Step)
  | client_listener_returns
  | client_listener_throws
deriving DecidableEq, Repr

/-- The server after a step, when it can be taken. -/
def next (s : TcpServerSocket) : Step → Option TcpServerSocket
  | .accept fd address port =>
    if s.Free fd then some (s.await_raw_socket_incomming fd address port) else none
  | .accept_fails => some s
  | .client i t => s.client_step i t
  | .client_listener_returns => s.listener_ends
  | .client_listener_throws => s.listener_ends

/-! ## The count -/

/-- The clients that are not destroyed. -/
def connected (s : TcpServerSocket) : Nat := s.clients.countP (·.world.alive)

/-- Each client's destructor has called back once if it has ended, and the counter has
the number of those that live. -/
structure Counted (s : TcpServerSocket) : Prop where
  once : ∀ a ∈ s.clients, destructions a.world.trace = if a.world.alive then 0 else 1
  number : s.number_of_connected_clients.toNat = s.connected

/-- `recv` found no end of the client's stream. -/
def Open (a : Accepted) : Prop := .recv 0 ∉ a.world.trace

instance (a : Accepted) : Decidable (Open a) := inferInstanceAs (Decidable (¬ _))

/-- A listener's call ends over a client whose stream has not ended. -/
def EndsOpen (s : TcpServerSocket) : Step → Prop
  | .client_listener_returns | .client_listener_throws =>
    ∀ i, s.waiting.head? = some (.client_listener i) → ∀ a, s.clients[i]? = some a → Open a
  | _ => True

/-! ## What a call does to the count -/

/-- A call neither destroys the client nor finds the end of its stream. -/
structure Calm (w w' : World) : Prop where
  destructor_cb : w'.client.destructor_cb = w.client.destructor_cb
  alive : w'.alive = w.alive
  destructions : destructions w'.trace = destructions w.trace
  open_iff : .recv 0 ∈ w'.trace ↔ .recv 0 ∈ w.trace

/-- A call destroys the client. -/
structure Dies (w w' : World) : Prop where
  destructor_cb : w'.client.destructor_cb = w.client.destructor_cb
  before : w.alive = true
  after : w'.alive = false
  destructions : destructions w'.trace = destructions w.trace + 1

theorem Calm.refl (w : World) : Calm w w := ⟨rfl, rfl, rfl, Iff.rfl⟩

theorem Calm.trans {u v w : World} (h : Calm u v) (h' : Calm v w) : Calm u w :=
  ⟨h'.destructor_cb.trans h.destructor_cb, h'.alive.trans h.alive,
    h'.destructions.trans h.destructions, h'.open_iff.trans h.open_iff⟩

/-- A function is calm, however it ends. -/
def Keeps {α : Type} (h : Handler α) : Prop :=
  ∀ w, match h w with
    | .ok _ w' => Calm w w'
    | .error _ w' => Calm w w'

theorem Keeps.bind {α β : Type} {h : Handler α} {k : α → Handler β} (hh : Keeps h)
    (hk : ∀ a, Keeps (k a)) : Keeps (h >>= k) := by
  intro w
  have hfirst := hh w
  cases hw : h w with
  | error e w' =>
    rw [hw] at hfirst
    rw [bind_error hw]
    exact hfirst
  | ok a w' =>
    rw [hw] at hfirst
    rw [bind_ok hw]
    have hsecond := hk a w'
    cases hw' : k a w' with
    | error e w'' =>
      rw [hw'] at hsecond
      exact hfirst.trans hsecond
    | ok b w'' =>
      rw [hw'] at hsecond
      exact hfirst.trans hsecond

theorem Keeps.note {e : Effect} (he : TcpClient.Plain e) : Keeps (note e) := by
  intro w
  refine ⟨rfl, rfl, ?_, ?_⟩
  · simp [TcpServerSocket.destructions, he.1]
  · simp [Ne.symm he.2]

theorem keeps_statements : TcpClient.Statements @Keeps where
  pure _ := Calm.refl
  throw _ := Calm.refl
  bind := Keeps.bind
  look f _ hk w := hk (f w.client) w
  note := Keeps.note
  set_events _ _ := ⟨rfl, rfl, rfl, Iff.rfl⟩
  set_queue _ _ := ⟨rfl, rfl, rfl, Iff.rfl⟩
  push_frame _ _ := ⟨rfl, rfl, rfl, Iff.rfl⟩

theorem Keeps.call {h : Handler TcpClient.Outcome} (hh : Keeps h) {w w' : World}
    {o : TcpClient.Outcome} (hcall : some (TcpClient.call h w) = some (o, w')) : Calm w w' := by
  have hends := hh w
  unfold TcpClient.call at hcall
  cases hw : h w with
  | ok o w' =>
    rw [hw] at hcall hends
    cases hcall
    exact hends
  | error e w' =>
    rw [hw] at hcall hends
    cases hcall
    exact hends

theorem destructions_destructed {w : World} (hcb : w.client.destructor_cb = true) :
    destructions (TcpClient.destructed w).trace = destructions w.trace + 1 := by
  simp only [TcpClient.destructed, TcpClient.farewell, destructions, hcb, List.count_append]
  split_ifs <;> simp

theorem dies_destructed {w : World} (hcb : w.client.destructor_cb = true)
    (ha : w.alive = true) : Dies w (TcpClient.destructed w) :=
  ⟨rfl, ha, rfl, destructions_destructed hcb⟩

/-- At the end of the stream the client is destroyed, and the call goes on. -/
theorem cb_ev_closed {w : World} {events : Events} {received : RecvResult}
    (herror : ¬ has events ev.ERROR) (hread : has events ev.READ)
    (hzero : (recv 1024 received).1 = 0) (result : WriteResult) :
    TcpClient.call (TcpClient.cb_ev events received result) w =
      TcpClient.call (do TcpClient.cb_ev_rest events result; return .returned)
        (TcpClient.destructed { w with trace := w.trace ++ [.recv 0] }) := by
  have hdestruct := TcpClient.destruct_eq { w with trace := w.trace ++ [.recv 0] }
  unfold TcpClient.cb_ev
  rw [if_neg herror, if_pos hread]
  simp only [hzero]
  show TcpClient.call (TcpClient.destruct >>= fun _ => do
    TcpClient.cb_ev_rest events result; return .returned)
      { w with trace := w.trace ++ [.recv 0] } = _
  exact TcpClient.call_bind hdestruct _

/-- A step of a client that has a destructor callback is calm, or the client is
destroyed at the end of its stream. -/
theorem client_cases {w w' : World} {t : TcpClient.Step} {o : TcpClient.Outcome}
    (hcb : w.client.destructor_cb = true) (hne : t ≠ .destroy)
    (h : TcpClient.step w t = some (o, w')) :
    Calm w w' ∨ Dies w w' ∧ .recv 0 ∈ w'.trace := by
  cases t with
  | write_data data =>
    simp only [TcpClient.step] at h
    split_ifs at h
    exact Or.inl (Keeps.call (keeps_statements.returned (keeps_statements.write_data data)) h)
  | cb_ev events received result =>
    simp only [TcpClient.step] at h
    split_ifs at h with ha
    by_cases hend : ¬ has events ev.ERROR ∧ has events ev.READ ∧ (recv 1024 received).1 = 0
    · obtain ⟨herror, hread, hzero⟩ := hend
      have hdies := dies_destructed (w := { w with trace := w.trace ++ [.recv 0] }) hcb ha
      rw [cb_ev_closed herror hread hzero] at h
      have hcalm := Keeps.call
        (keeps_statements.returned (keeps_statements.cb_ev_rest events result)) h
      refine Or.inr ⟨⟨hcalm.destructor_cb, ha, hcalm.alive, ?_⟩, ?_⟩
      · rw [hcalm.destructions, hdies.destructions]
        simp [destructions]
      · rw [hcalm.open_iff]
        simp [TcpClient.destructed]
    · exact Or.inl (Keeps.call (keeps_statements.cb_ev events received result
        (fun herror hread hzero => absurd ⟨herror, hread, hzero⟩ hend)) h)
  | in_data_cb_returns result =>
    simp only [TcpClient.step] at h
    split at h
    · cases h
    · rename_i events frames hf
      have hcalm := Keeps.call
        (keeps_statements.returned (keeps_statements.cb_ev_rest events result)) h
      exact Or.inl ⟨hcalm.destructor_cb, hcalm.alive, hcalm.destructions, hcalm.open_iff⟩
  | in_data_cb_throws =>
    simp only [TcpClient.step] at h
    split at h
    · cases h
    · cases h
      exact Or.inl ⟨rfl, rfl, rfl, Iff.rfl⟩
  | destroy => exact absurd rfl hne

/-! ## What holds in every run -/

/-- Each listener's call has a client of its own, and while it lasts the client lives as
long as its stream has not ended. Clients that live have descriptors of their own. -/
structure Kept (s : TcpServerSocket) : Prop where
  callback : ∀ a ∈ s.clients, a.world.client.destructor_cb = true
  listener : ∀ i, .client_listener i ∈ s.waiting → i < s.clients.length
  once : ∀ i, s.waiting.count (.client_listener i) ≤ 1
  lives : ∀ i a, s.clients[i]? = some a → .client_listener i ∈ s.waiting →
    (a.world.alive = true ↔ Open a)
  small : ∀ a ∈ s.clients, a.world.alive → a.client_fd_raw < 2 ^ 31
  apart : ∀ (i j : Nat) (a b : Accepted), i ≠ j → s.clients[i]? = some a → s.clients[j]? = some b →
    a.world.alive → b.world.alive → a.client_fd_raw ≠ b.client_fd_raw

theorem kept_listening : Kept listening := by
  constructor <;> simp [listening]

/-- Each client that lives has a descriptor, so there are not too many of them. -/
theorem Kept.connected_le {s : TcpServerSocket} (h : s.Kept) : s.connected ≤ 2 ^ 31 := by
  let living := s.clients.filter (·.world.alive)
  have hnodup : (living.map (·.client_fd_raw)).Nodup := by
    rw [List.Nodup, List.pairwise_map]
    have hall : s.clients.Pairwise fun a b =>
        a.world.alive → b.world.alive → a.client_fd_raw ≠ b.client_fd_raw := by
      rw [List.pairwise_iff_getElem]
      intro i j hi hj hij ha hb
      exact h.apart i j _ _ (by omega) (List.getElem?_eq_getElem hi) (List.getElem?_eq_getElem hj)
        ha hb
    apply (hall.filter _).imp_of_mem
    intro a b ha hb hab
    exact hab (List.mem_filter.mp ha).2 (List.mem_filter.mp hb).2
  have hsmall : living.map (·.client_fd_raw) ⊆ List.range (2 ^ 31) := by
    intro fd hfd
    obtain ⟨a, ha, rfl⟩ := List.mem_map.mp hfd
    obtain ⟨hmem, halive⟩ := List.mem_filter.mp ha
    exact List.mem_range.mpr (h.small a hmem halive)
  have hle := (hnodup.subperm hsmall).length_le
  rw [List.length_map, List.length_range] at hle
  rwa [connected, List.countP_eq_length_filter]

/-- The world of a client may be exchanged for a later one. -/
theorem Kept.settle {s : TcpServerSocket} {i : Nat} {a : Accepted} {w : World}
    {waiting : List Waiting} (h : s.Kept) (ha : s.clients[i]? = some a)
    (hcb : w.client.destructor_cb = true) (hlive : w.alive = true → a.world.alive = true)
    (hwaiting : ∀ j, waiting.count (.client_listener j) ≤ s.waiting.count (.client_listener j))
    (hopen : .client_listener i ∈ waiting → (w.alive = true ↔ .recv 0 ∉ w.trace)) :
    Kept { s.settle i a w with waiting } := by
  have hmem : ∀ j, .client_listener j ∈ waiting → .client_listener j ∈ s.waiting := by
    intro j hj
    have hpos := List.count_pos_iff.mpr hj
    exact List.count_pos_iff.mp (Nat.lt_of_lt_of_le hpos (hwaiting j))
  have hlt : i < s.clients.length := (List.getElem?_eq_some_iff.mp ha).1
  have hget : ∀ j b, (s.clients.set i { a with world := w })[j]? = some b →
      j = i ∧ b = { a with world := w } ∨ j ≠ i ∧ s.clients[j]? = some b := by
    intro j b hb
    by_cases hj : j = i
    · subst hj
      rw [List.getElem?_set_self hlt] at hb
      exact Or.inl ⟨rfl, (Option.some.inj hb).symm⟩
    · rw [List.getElem?_set_ne (Ne.symm hj)] at hb
      exact Or.inr ⟨hj, hb⟩
  have hin : a ∈ s.clients := List.mem_of_getElem? ha
  constructor
  case callback =>
    intro b hb
    rcases List.mem_or_eq_of_mem_set hb with hb | rfl
    · exact h.callback b hb
    · exact hcb
  case listener =>
    intro j hj
    simpa [TcpServerSocket.settle] using h.listener j (hmem j hj)
  case once =>
    intro j
    exact Nat.le_trans (hwaiting j) (h.once j)
  case lives =>
    intro j b hb hj
    rcases hget j b hb with ⟨rfl, rfl⟩ | ⟨_, hb⟩
    · exact hopen hj
    · exact h.lives j b hb (hmem j hj)
  case small =>
    intro b hb halive
    rcases List.mem_or_eq_of_mem_set hb with hb | rfl
    · exact h.small b hb halive
    · exact h.small a hin (hlive halive)
  case apart =>
    intro j k b c hjk hb hc hbl hcl
    rcases hget j b hb with ⟨rfl, rfl⟩ | ⟨_, hb'⟩
    · rcases hget k c hc with ⟨rfl, rfl⟩ | ⟨_, hc'⟩
      · exact absurd rfl hjk
      · exact h.apart j k a c hjk ha hc' (hlive hbl) hcl
    · rcases hget k c hc with ⟨rfl, rfl⟩ | ⟨_, hc'⟩
      · exact h.apart j k b a hjk hb' ha hbl (hlive hcl)
      · exact h.apart j k b c hjk hb' hc' hbl hcl

theorem Kept.accept {s : TcpServerSocket} {fd : Nat} (h : s.Kept) (hfree : s.Free fd)
    (address : String) (port : Nat) : Kept (s.await_raw_socket_incomming fd address port) := by
  have hfresh : .client_listener s.clients.length ∉ s.waiting := fun hmem =>
    absurd (h.listener _ hmem) (Nat.lt_irrefl _)
  have hget : ∀ j (b : Accepted), (s.await_raw_socket_incomming fd address port).clients[j]? =
      some b → s.clients[j]? = some b ∨
        j = s.clients.length ∧ b = ⟨fd, TcpClient.of_socket true fd address port⟩ := by
    intro j b hb
    simp only [await_raw_socket_incomming, List.getElem?_append] at hb
    split_ifs at hb with hj
    · exact Or.inl hb
    · rw [List.getElem?_singleton] at hb
      split_ifs at hb with hz
      exact Or.inr ⟨by omega, (Option.some.inj hb).symm⟩
  have hmem : ∀ b ∈ (s.await_raw_socket_incomming fd address port).clients, b ∈ s.clients ∨
      b = ⟨fd, TcpClient.of_socket true fd address port⟩ := by
    intro b hb
    simpa [await_raw_socket_incomming] using hb
  constructor
  case callback =>
    intro b hb
    rcases hmem b hb with hb | rfl
    · exact h.callback b hb
    · rfl
  case listener =>
    intro j hj
    simp only [await_raw_socket_incomming, List.length_append, List.length_singleton]
    rcases List.mem_cons.mp hj with hj | hj
    · cases hj
      omega
    · have hlt := h.listener j hj
      omega
  case once =>
    intro j
    simp only [await_raw_socket_incomming, List.count_cons]
    by_cases hj : j = s.clients.length
    · subst hj
      rw [List.count_eq_zero.mpr hfresh]
      simp
    · have honce := h.once j
      simpa [Ne.symm hj] using honce
  case lives =>
    intro j b hb hj
    rcases hget j b hb with hb | ⟨rfl, rfl⟩
    · have hlt := (List.getElem?_eq_some_iff.mp hb).1
      apply h.lives j b hb
      rcases List.mem_cons.mp hj with hj | hj
      · cases hj
        omega
      · exact hj
    · exact iff_of_true rfl (by simp [Open, TcpClient.of_socket])
  case small =>
    intro b hb halive
    rcases hmem b hb with hb | rfl
    · exact h.small b hb halive
    · exact hfree.1
  case apart =>
    intro j k b c hjk hb hc hbl hcl
    rcases hget j b hb with hb | ⟨rfl, rfl⟩
    · rcases hget k c hc with hc | ⟨rfl, rfl⟩
      · exact h.apart j k b c hjk hb hc hbl hcl
      · exact hfree.2 b (List.mem_of_getElem? hb) hbl
    · rcases hget k c hc with hc | ⟨rfl, rfl⟩
      · exact (hfree.2 c (List.mem_of_getElem? hc) hcl).symm
      · exact absurd rfl hjk

/-- What a step of a client makes of the server: the client's call is calm, or it
destroys the client at the end of its stream. -/
theorem client_step_cases {s u : TcpServerSocket} {i : Nat} {t : TcpClient.Step} (h : s.Kept)
    (hu : s.client_step i t = some u) :
    ∃ a w waiting, s.clients[i]? = some a ∧ u = { s.settle i a w with waiting } ∧
      (∀ j, waiting.count (.client_listener j) = s.waiting.count (.client_listener j)) ∧
      (Calm a.world w ∨ Dies a.world w ∧ .recv 0 ∈ w.trace) := by
  simp only [client_step, Option.bind_eq_bind, Option.bind_eq_some_iff] at hu
  obtain ⟨a, ha, ⟨o, w⟩, hstep, hu⟩ := hu
  have hcb := h.callback a (List.mem_of_getElem? ha)
  have hback : s.waiting.head? = some (.in_data_cb i) → ∀ j,
      s.waiting.tail.count (.client_listener j) = s.waiting.count (.client_listener j) := by
    intro hhead j
    obtain ⟨rest, hrest⟩ : ∃ rest, s.waiting = .in_data_cb i :: rest :=
      ⟨_, List.eq_cons_of_mem_head? hhead⟩
    simp [hrest]
  have hdeep : ∀ {o : TcpClient.Outcome},
      (if o = .in_data_cb then
        some { s.settle i a w with waiting := .in_data_cb i :: s.waiting }
      else some (s.settle i a w)) = some u →
      ∃ waiting, u = { s.settle i a w with waiting } ∧
        ∀ j, waiting.count (.client_listener j) = s.waiting.count (.client_listener j) := by
    intro o hu
    split_ifs at hu
    · exact ⟨_, (Option.some.inj hu).symm, fun j => by simp⟩
    · exact ⟨s.waiting, (Option.some.inj hu).symm, fun _ => rfl⟩
  cases t with
  | write_data data =>
    obtain ⟨waiting, hu, hcount⟩ := hdeep hu
    exact ⟨a, w, waiting, ha, hu, hcount, client_cases hcb (by simp) hstep⟩
  | cb_ev events received result =>
    obtain ⟨waiting, hu, hcount⟩ := hdeep hu
    exact ⟨a, w, waiting, ha, hu, hcount, client_cases hcb (by simp) hstep⟩
  | in_data_cb_returns result =>
    simp only [] at hu
    split_ifs at hu with hhead
    exact ⟨a, w, _, ha, (Option.some.inj hu).symm, hback hhead, client_cases hcb (by simp) hstep⟩
  | in_data_cb_throws =>
    simp only [] at hu
    split_ifs at hu with hhead
    exact ⟨a, w, _, ha, (Option.some.inj hu).symm, hback hhead, client_cases hcb (by simp) hstep⟩
  | destroy => cases hu

theorem listener_ends_cases {s u : TcpServerSocket} (hu : s.listener_ends = some u) :
    ∃ i rest a, s.waiting = .client_listener i :: rest ∧ s.clients[i]? = some a ∧
      u = { s.settle i a (TcpClient.destructed a.world) with waiting := rest } := by
  unfold listener_ends at hu
  split at hu
  · rename_i i rest hwaiting
    simp only [Option.bind_eq_bind, Option.bind_eq_some_iff] at hu
    obtain ⟨a, ha, hu⟩ := hu
    rw [TcpClient.call_ok (TcpClient.destruct_eq a.world)] at hu
    exact ⟨i, rest, a, hwaiting, ha, (Option.some.inj hu).symm⟩
  · cases hu

theorem kept_listener_ends {s u : TcpServerSocket} (h : s.Kept) (hu : s.listener_ends = some u) :
    u.Kept := by
  obtain ⟨i, rest, a, hwaiting, ha, rfl⟩ := listener_ends_cases hu
  have honce := h.once i
  rw [hwaiting, List.count_cons_self] at honce
  have hgone : .client_listener i ∉ rest := List.count_eq_zero.mp (by omega)
  refine h.settle ha (h.callback a (List.mem_of_getElem? ha)) (fun hd => by cases hd) ?_
    (fun hmem => absurd hmem hgone)
  intro j
  rw [hwaiting]
  exact List.count_le_count_cons

theorem kept_next {s u : TcpServerSocket} {t : Step} (h : s.Kept) (hu : s.next t = some u) :
    u.Kept := by
  cases t with
  | accept fd address port =>
    simp only [next] at hu
    split_ifs at hu with hfree
    cases hu
    exact h.accept hfree address port
  | accept_fails =>
    cases hu
    exact h
  | client i t =>
    obtain ⟨a, w, waiting, ha, rfl, hcount, hcalm | ⟨hdies, hclosed⟩⟩ := client_step_cases h hu
    · have hcb := h.callback a (List.mem_of_getElem? ha)
      refine h.settle ha (hcalm.destructor_cb.trans hcb) (fun hw => hcalm.alive ▸ hw)
        (fun j => Nat.le_of_eq (hcount j)) ?_
      intro hmem
      have hin : .client_listener i ∈ s.waiting := by
        rw [← List.count_pos_iff, ← hcount i]
        exact List.count_pos_iff.mpr hmem
      rw [hcalm.alive, h.lives i a ha hin, Open, hcalm.open_iff]
    · have hcb := h.callback a (List.mem_of_getElem? ha)
      refine h.settle ha (hdies.destructor_cb.trans hcb) (fun _ => hdies.before)
        (fun j => Nat.le_of_eq (hcount j)) ?_
      intro _
      exact iff_of_false (by simp [hdies.after]) (fun hnot => hnot hclosed)
  | client_listener_returns => exact kept_listener_ends h hu
  | client_listener_throws => exact kept_listener_ends h hu

/-! ## The law of the count -/

theorem counted_listening : Counted listening := by
  constructor
  · intro a ha
    cases ha
  · rfl

section Settle

variable {s : TcpServerSocket} {i : Nat} {a : Accepted} {w : World}

theorem once_settle (h : s.Counted) (waiting : List Waiting)
    (hw : destructions w.trace = if w.alive then 0 else 1) :
    ∀ b ∈ ({ s.settle i a w with waiting } : TcpServerSocket).clients,
      destructions b.world.trace = if b.world.alive then 0 else 1 := by
  intro b hb
  rcases List.mem_or_eq_of_mem_set hb with hb | rfl
  · exact h.once b hb
  · exact hw

theorem connected_settle (ha : s.clients[i]? = some a) (waiting : List Waiting) :
    ({ s.settle i a w with waiting } : TcpServerSocket).connected =
      s.connected - (if a.world.alive then 1 else 0) + if w.alive then 1 else 0 := by
  obtain ⟨hlt, hget⟩ := List.getElem?_eq_some_iff.mp ha
  simp only [connected, settle]
  rw [List.countP_set hlt, hget]

theorem connected_pos (ha : s.clients[i]? = some a) (halive : a.world.alive = true) :
    0 < s.connected :=
  List.countP_pos_iff.mpr ⟨a, List.mem_of_getElem? ha, halive⟩

theorem Counted.calm (h : s.Counted) (ha : s.clients[i]? = some a) (hcalm : Calm a.world w)
    (waiting : List Waiting) : Counted { s.settle i a w with waiting } := by
  have hin := h.once a (List.mem_of_getElem? ha)
  refine ⟨once_settle h waiting (by rw [hcalm.destructions, hcalm.alive, hin]), ?_⟩
  rw [connected_settle ha, hcalm.alive]
  simp only [settle, hcalm.destructions, Nat.sub_self, Function.iterate_zero, id]
  rw [h.number]
  split_ifs with halive
  · have hpos := connected_pos ha halive
    omega
  · rfl

theorem Counted.dies (h : s.Counted) (ha : s.clients[i]? = some a) (hdies : Dies a.world w)
    (waiting : List Waiting) : Counted { s.settle i a w with waiting } := by
  have hin := h.once a (List.mem_of_getElem? ha)
  have hpos := connected_pos ha hdies.before
  rw [hdies.before] at hin
  refine ⟨once_settle h waiting (by rw [hdies.destructions, hdies.after, hin]; rfl), ?_⟩
  rw [connected_settle ha, hdies.before, hdies.after]
  simp only [settle, hdies.destructions, Nat.add_sub_cancel_left, Function.iterate_one,
    client_destructed_cb]
  have hone : (1 : UInt32) ≤ s.number_of_connected_clients := by
    rw [UInt32.le_iff_toNat_le, h.number]
    exact hpos
  rw [UInt32.toNat_sub_of_le _ _ hone, h.number]
  rfl

/-- The destructor of a client that is destroyed already counts off another one. -/
theorem not_counted_destructed (h : s.Counted) (hcb : a.world.client.destructor_cb = true)
    (ha : s.clients[i]? = some a) (hdead : a.world.alive = false) (waiting : List Waiting) :
    ¬ Counted { s.settle i a (TcpClient.destructed a.world) with waiting } := by
  intro hafter
  have hlt := (List.getElem?_eq_some_iff.mp ha).1
  have hmem : { a with world := TcpClient.destructed a.world } ∈
      ({ s.settle i a (TcpClient.destructed a.world) with waiting } : TcpServerSocket).clients :=
    List.mem_of_getElem? (i := i) (by simp [settle, hlt])
  have htwice := hafter.once _ hmem
  have hin := h.once a (List.mem_of_getElem? ha)
  rw [hdead] at hin
  rw [destructions_destructed hcb, hin] at htwice
  simp [TcpClient.destructed] at htwice

end Settle

theorem Counted.accept {s : TcpServerSocket} (h : s.Counted) (hkept : s.Kept) (fd : Nat)
    (address : String) (port : Nat) : Counted (s.await_raw_socket_incomming fd address port) := by
  have hle := hkept.connected_le
  constructor
  · intro b hb
    rcases List.mem_append.mp hb with hb | hb
    · exact h.once b hb
    · rw [List.mem_singleton.mp hb]
      rfl
  · have hone : (1 : UInt32).toNat = 1 := rfl
    simp only [await_raw_socket_incomming, connected, List.countP_append]
    rw [UInt32.toNat_add, h.number, hone, Nat.mod_eq_of_lt (by omega)]
    rfl

theorem counted_next {s u : TcpServerSocket} {t : Step} (hkept : s.Kept) (h : s.Counted)
    (hok : s.EndsOpen t) (hu : s.next t = some u) : u.Counted := by
  have hends : s.listener_ends = some u → (∀ i, s.waiting.head? = some (.client_listener i) →
      ∀ a, s.clients[i]? = some a → Open a) → u.Counted := by
    intro hu hopen
    obtain ⟨i, rest, a, hwaiting, ha, rfl⟩ := listener_ends_cases hu
    have halive : a.world.alive = true :=
      (hkept.lives i a ha (by simp [hwaiting])).mpr (hopen i (by simp [hwaiting]) a ha)
    have hcb := hkept.callback a (List.mem_of_getElem? ha)
    exact h.dies ha (dies_destructed hcb halive) rest
  cases t with
  | accept fd address port =>
    simp only [next] at hu
    split_ifs at hu
    cases hu
    exact h.accept hkept fd address port
  | accept_fails =>
    cases hu
    exact h
  | client i t =>
    obtain ⟨a, w, waiting, ha, rfl, _, hcalm | ⟨hdies, _⟩⟩ := client_step_cases hkept hu
    · exact h.calm ha hcalm waiting
    · exact h.dies ha hdies waiting
  | client_listener_returns => exact hends hu hok
  | client_listener_throws => exact hends hu hok

/-- A listener's call that ends over a closed stream breaks the count. -/
theorem not_counted_next {s u : TcpServerSocket} {t : Step} (hkept : s.Kept) (h : s.Counted)
    (hnot : ¬ s.EndsOpen t) (hu : s.next t = some u) : ¬ u.Counted := by
  have hends : s.listener_ends = some u → (¬ ∀ i, s.waiting.head? = some (.client_listener i) →
      ∀ a, s.clients[i]? = some a → Open a) → ¬ u.Counted := by
    intro hu hclosed
    obtain ⟨i, rest, a, hwaiting, ha, rfl⟩ := listener_ends_cases hu
    have hdead : a.world.alive = false := by
      rw [← Bool.not_eq_true, hkept.lives i a ha (by simp [hwaiting])]
      intro hopen
      apply hclosed
      intro j hj b hb
      obtain rfl : i = j := by simpa [hwaiting] using hj
      rw [ha] at hb
      cases hb
      exact hopen
    exact not_counted_destructed h (hkept.callback a (List.mem_of_getElem? ha)) ha hdead rest
  cases t with
  | accept => exact absurd trivial hnot
  | accept_fails => exact absurd trivial hnot
  | client => exact absurd trivial hnot
  | client_listener_returns => exact hends hu hnot
  | client_listener_throws => exact hends hu hnot

/-- The count is right at every point of a run exactly when no call of the listener ends
over a client whose `recv` has found the end of its stream. -/
theorem the_count_is_right_unless_a_stream_ends_in_the_listener {s : TcpServerSocket}
    {steps : List Step} (h : run next listening steps = some s) :
    (∀ before behind t, steps = before ++ behind → run next listening before = some t →
      t.Counted) ↔ Meets next EndsOpen listening steps := by
  apply forall_iff_meets next kept_listening counted_listening
  · exact fun _ _ _ hkept hu => kept_next hkept hu
  · exact fun _ _ _ hkept hcounted hopen hu => counted_next hkept hcounted hopen hu
  · exact fun _ _ _ hkept hcounted hclosed hu => not_counted_next hkept hcounted hclosed hu
  · exact h

/-- Two clients, of which the second is accepted while the listener of the first runs. -/
theorem the_count_is_right_for_two_clients :
    let steps : List Step := [.accept 5 "10.0.0.1" 4000,
      .client 0 (.cb_ev ev.READ (.data [1]) (.accepts 0)), .accept 6 "10.0.0.2" 4001,
      .client 1 (.write_data [7]), .client_listener_returns,
      .client 0 (.in_data_cb_returns (.accepts 0)), .client_listener_throws]
    ∃ s, run next listening steps = some s ∧ s.number_of_connected_clients = 0 ∧
      ∀ before behind t, steps = before ++ behind → run next listening before = some t →
        t.Counted := by
  intro steps
  obtain ⟨s, hs, hzero⟩ : ∃ s, run next listening steps = some s ∧
    s.number_of_connected_clients = 0 := ⟨_, rfl, by decide⟩
  refine ⟨s, hs, hzero, (the_count_is_right_unless_a_stream_ends_in_the_listener hs).mpr ?_⟩
  refine ⟨trivial, fun t ht => ?_⟩
  cases ht
  refine ⟨trivial, fun t ht => ?_⟩
  cases ht
  refine ⟨trivial, fun t ht => ?_⟩
  cases ht
  refine ⟨trivial, fun t ht => ?_⟩
  cases ht
  constructor
  · intro i hi a ha
    cases hi
    cases ha
    decide
  · intro t ht
    cases ht
    refine ⟨trivial, fun t ht => ?_⟩
    cases ht
    refine ⟨?_, fun _ _ => trivial⟩
    intro i hi a ha
    cases hi
    cases ha
    decide

/-- A peer that closes while the listener runs an event loop is counted off twice. -/
theorem a_stream_that_ends_in_the_listener_wraps_the_count :
    ∃ s, run next listening [.accept 5 "10.0.0.1" 4000,
        .client 0 (.cb_ev ev.READ (.data []) (.accepts 0)), .client_listener_returns] = some s ∧
      s.number_of_connected_clients = 0xFFFFFFFF ∧ s.connected = 0 ∧ ¬ s.Counted := by
  refine ⟨_, rfl, by decide, by decide, ?_⟩
  intro hcounted
  exact absurd hcounted.number (by decide)

end TcpServerSocket

end rmrf.net
