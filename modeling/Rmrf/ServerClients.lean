-- The clients of one server do not meet. Each of them runs as it would alone, with the
-- steps that the server's run has for it, so what holds of every run of a client holds of
-- each client of a server.
import Rmrf.OutboundStream
import Rmrf.Runs
import Rmrf.TcpServerSocket

open runs

namespace rmrf.net

namespace TcpServerSocket

variable {s u : TcpServerSocket} {i : Nat}

/-! ## The steps of one client -/

/-- The step of a client that the server does not see. -/
def alone (a : Accepted) (t : TcpClient.Step) : Option Accepted :=
  (TcpClient.next a.world t).map fun w => { a with world := w }

/-- What a step of the server is for client `i`. The end of the listener's call is the end
of the client's life. -/
def own (i : Nat) (s : TcpServerSocket) (t : Step) (_ : TcpServerSocket) : List TcpClient.Step :=
  match t with
  | .client j t => if j = i then [t] else []
  | .client_listener_returns | .client_listener_throws =>
    if s.waiting.head? = some (.client_listener i) then [.destroy] else []
  | _ => []

/-- The steps that a run of the server has for client `i`. -/
def stepsOf (i : Nat) (steps : List Step) : List TcpClient.Step :=
  outputs next (own i) listening steps

theorem run_alone {a b : Accepted} {ts : List TcpClient.Step} (h : run alone a ts = some b) :
    b.client_fd_raw = a.client_fd_raw ∧ run TcpClient.next a.world ts = some b.world := by
  induction ts generalizing a with
  | nil =>
    cases h
    exact ⟨rfl, rfl⟩
  | cons t rest ih =>
    simp only [run, alone, Option.bind_eq_some_iff, Option.map_eq_some_iff] at h
    obtain ⟨_, ⟨w, hw, rfl⟩, hrest⟩ := h
    obtain ⟨hfd, hrun⟩ := ih hrest
    refine ⟨hfd, ?_⟩
    simp only [run, hw]
    exact hrun

/-- A step of a client changes nothing of the others. -/
theorem exists_client_step {t : TcpClient.Step} (hu : s.client_step i t = some u) :
    ∃ a o w, s.clients[i]? = some a ∧ TcpClient.step a.world t = some (o, w) ∧
      u.clients = s.clients.set i { a with world := w } := by
  simp only [client_step, Option.bind_eq_bind, Option.bind_eq_some_iff] at hu
  obtain ⟨a, ha, ⟨o, w⟩, hstep, hu⟩ := hu
  refine ⟨a, o, w, ha, hstep, ?_⟩
  cases t with
  | destroy => cases hu
  | write_data data =>
    simp only [] at hu
    split_ifs at hu <;> cases hu <;> rfl
  | cb_ev events received result =>
    simp only [] at hu
    split_ifs at hu <;> cases hu <;> rfl
  | in_data_cb_returns result =>
    simp only [] at hu
    split_ifs at hu
    cases hu
    rfl
  | in_data_cb_throws =>
    simp only [] at hu
    split_ifs at hu
    cases hu
    rfl

/-- The listener's call ends over a client that lives, and destroys it. -/
theorem listener_ends_alone {a : Accepted} (hkept : s.Kept)
    (hopen : ∀ j, s.waiting.head? = some (.client_listener j) →
      ∀ b, s.clients[j]? = some b → Open b)
    (hu : s.listener_ends = some u) (ha : s.clients[i]? = some a) :
    ∃ b, u.clients[i]? = some b ∧
      run alone a (if s.waiting.head? = some (.client_listener i) then [.destroy] else []) =
        some b := by
  obtain ⟨j, rest, b, hwaiting, hb, rfl⟩ := listener_ends_cases hu
  have hhead : s.waiting.head? = some (.client_listener j) := by rw [hwaiting, List.head?_cons]
  obtain ⟨hj, _⟩ := List.getElem?_eq_some_iff.mp hb
  by_cases hji : j = i
  · subst hji
    obtain rfl : a = b := Option.some.inj (ha.symm.trans hb)
    have halive : a.world.alive = true :=
      (hkept.lives j a ha (List.mem_of_mem_head? hhead)).mpr (hopen j hhead a ha)
    have hstep : TcpClient.next a.world .destroy = some (TcpClient.destructed a.world) := by
      unfold TcpClient.next TcpClient.step
      rw [if_pos halive, TcpClient.call_ok (TcpClient.destruct_eq a.world)]
      rfl
    refine ⟨{ a with world := TcpClient.destructed a.world }, List.getElem?_set_self hj, ?_⟩
    rw [if_pos hhead]
    simp only [run, alone, hstep, Option.map_some, Option.bind_some]
  · have hne : s.waiting.head? ≠ some (.client_listener i) := by
      rw [hhead]
      intro heq
      exact hji (Waiting.client_listener.inj (Option.some.inj heq))
    refine ⟨a, (List.getElem?_set_ne hji).trans ha, ?_⟩
    rw [if_neg hne]
    rfl

/-- What each step of the server is for a client, the client can do alone. -/
theorem step_alone {t : Step} {a : Accepted} (hkept : s.Kept) (hopen : s.EndsOpen t)
    (hu : s.next t = some u) (ha : s.clients[i]? = some a) :
    ∃ b, u.clients[i]? = some b ∧ run alone a (own i s t u) = some b := by
  cases t with
  | accept fd address port =>
    simp only [next] at hu
    split_ifs at hu
    cases hu
    obtain ⟨hi, _⟩ := List.getElem?_eq_some_iff.mp ha
    exact ⟨a, (List.getElem?_append_left hi).trans ha, rfl⟩
  | accept_fails =>
    cases hu
    exact ⟨a, ha, rfl⟩
  | client j t =>
    obtain ⟨b, o, w, hb, hstep, hclients⟩ := exists_client_step hu
    have hown : own i s (.client j t) u = if j = i then [t] else [] := rfl
    rw [hclients, hown]
    obtain ⟨hj, _⟩ := List.getElem?_eq_some_iff.mp hb
    by_cases hji : j = i
    · subst hji
      obtain rfl : a = b := Option.some.inj (ha.symm.trans hb)
      have hnext : TcpClient.next a.world t = some w := by
        rw [TcpClient.next, hstep]
        rfl
      refine ⟨{ a with world := w }, List.getElem?_set_self hj, ?_⟩
      rw [if_pos rfl]
      simp only [run, alone, hnext, Option.map_some, Option.bind_some]
    · refine ⟨a, (List.getElem?_set_ne hji).trans ha, ?_⟩
      rw [if_neg hji]
      rfl
  | client_listener_returns => exact listener_ends_alone hkept hopen hu ha
  | client_listener_throws => exact listener_ends_alone hkept hopen hu ha

/-- A client that was not there has no step of its own, and it begins as a new client. -/
theorem born_alone {t : Step} (hu : s.next t = some u) (hnone : s.clients[i]? = none) :
    own i s t u = [] ∧ ∀ a, u.clients[i]? = some a → ∃ address port,
      a.world = TcpClient.of_socket true a.client_fd_raw address port := by
  have hother : ∀ {j : Nat} {b c : Accepted}, s.clients[j]? = some b →
      j ≠ i ∧ (s.clients.set j c)[i]? = none := by
    intro j b c hb
    have hji : j ≠ i := by
      rintro rfl
      rw [hnone] at hb
      cases hb
    exact ⟨hji, (List.getElem?_set_ne hji).trans hnone⟩
  have hends : s.listener_ends = some u →
      (if s.waiting.head? = some (.client_listener i) then [TcpClient.Step.destroy] else []) = [] ∧
        u.clients[i]? = none := by
    intro hu
    obtain ⟨j, rest, b, hwaiting, hb, rfl⟩ := listener_ends_cases hu
    refine ⟨if_neg ?_, (hother hb).2⟩
    rw [hwaiting, List.head?_cons]
    intro heq
    exact (hother (c := b) hb).1 (Waiting.client_listener.inj (Option.some.inj heq))
  cases t with
  | accept fd address port =>
    simp only [next] at hu
    split_ifs at hu
    cases hu
    refine ⟨rfl, ?_⟩
    intro a ha
    have hi := List.getElem?_eq_none_iff.mp hnone
    unfold await_raw_socket_incomming at ha
    rw [List.getElem?_append_right hi] at ha
    obtain rfl := List.mem_singleton.mp (List.mem_of_getElem? ha)
    exact ⟨address, port, rfl⟩
  | accept_fails =>
    cases hu
    refine ⟨rfl, fun a ha => ?_⟩
    rw [hnone] at ha
    cases ha
  | client j t =>
    obtain ⟨b, o, w, hb, _, hclients⟩ := exists_client_step hu
    refine ⟨if_neg (hother (c := b) hb).1, fun a ha => ?_⟩
    rw [hclients, (hother hb).2] at ha
    cases ha
  | client_listener_returns =>
    refine ⟨(hends hu).1, fun a ha => ?_⟩
    rw [(hends hu).2] at ha
    cases ha
  | client_listener_throws =>
    refine ⟨(hends hu).1, fun a ha => ?_⟩
    rw [(hends hu).2] at ha
    cases ha

/-- Client `i` of a server is what it would be alone after its own steps. So the bytes that
have left it and those that wait are what its own `write_data` calls were given. -/
theorem each_client_runs_as_if_it_were_alone {steps : List Step}
    (hopen : Meets next EndsOpen listening steps) (hrun : run next listening steps = some s)
    {a : Accepted} (ha : s.clients[i]? = some a) :
    (∃ address port, run TcpClient.next (TcpClient.of_socket true a.client_fd_raw address port)
      (stepsOf i steps) = some a.world) ∧
    ((∀ t ∈ stepsOf i steps, TcpClient.Lossless t) →
      TcpClient.sent a.world.trace ++ a.world.unsent = TcpClient.givenBy (stepsOf i steps)) := by
  obtain ⟨b, ⟨address, port, hb⟩, halone⟩ := run_part_of_born next alone (own i)
    (fun s => s.clients[i]?)
    (fun _ _ _ hkept hu => kept_next hkept hu)
    (fun _ _ _ _ hkept hopen hu ha => step_alone hkept hopen hu ha)
    (fun _ _ _ hu hnone => born_alone hu hnone)
    kept_listening hopen hrun rfl ha
  obtain ⟨hfd, hclient⟩ := run_alone halone
  rw [hb, ← hfd] at hclient
  refine ⟨⟨address, port, hclient⟩, ?_⟩
  intro hok
  obtain ⟨p, hp⟩ := TcpClient.exists_pipe hok hclient
  exact hp.conserved

/-- Two clients that write in turns: the second finds its socket full, and the first does
not notice. -/
theorem two_clients_write_in_turns :
    let steps : List Step := [.accept 5 "10.0.0.1" 4000, .client 0 (.write_data [1, 2]),
      .accept 6 "10.0.0.2" 4001, .client 1 (.write_data [7]),
      .client 1 (.cb_ev ev.WRITE (.data []) (.fails EAGAIN)),
      .client 0 (.cb_ev ev.WRITE (.data []) (.accepts 1))]
    ∃ s a, run next listening steps = some s ∧ s.clients[0]? = some a ∧
      TcpClient.sent a.world.trace = [1] ∧
        TcpClient.sent a.world.trace ++ a.world.unsent = [1, 2] := by
  intro steps
  have hopen : Meets next EndsOpen listening steps :=
    ⟨trivial, fun _ _ => ⟨trivial, fun _ _ => ⟨trivial, fun _ _ => ⟨trivial, fun _ _ =>
      ⟨trivial, fun _ _ => ⟨trivial, fun _ _ => trivial⟩⟩⟩⟩⟩⟩
  have hsteps : stepsOf 0 steps =
      [.write_data [1, 2], .cb_ev ev.WRITE (.data []) (.accepts 1)] := rfl
  obtain ⟨s, a, hs, ha, hsent⟩ : ∃ s a, run next listening steps = some s ∧
      s.clients[0]? = some a ∧ TcpClient.sent a.world.trace = [1] := ⟨_, _, rfl, rfl, rfl⟩
  have hstream := (each_client_runs_as_if_it_were_alone hopen hs ha).2
  rw [hsteps] at hstream
  exact ⟨s, a, hs, ha, hsent, hstream (by simp [TcpClient.Lossless, WriteResult.Passes])⟩

end TcpServerSocket

end rmrf.net
