-- The descriptors of a server: of its constructor, of each client over the client's life,
-- and of a whole run. Where no call goes on over a client that is destroyed, the server and
-- its clients use and close what they have open, and what is open at the end of the run is
-- the server's socket and the sockets of the clients that live.
import Rmrf.AcceptedPeers
import Rmrf.ServerClients
import Rmrf.SocketHandles

open handles runs stateful

namespace rmrf.net

/-! ## A client -/

namespace TcpClient

/-- What an effect of a client with this descriptor does to the table. -/
def acts (fd : Int) : Effect → List (Act Int)
  | .recv _ => [.uses fd]
  | .write _ _ => [.uses fd]
  | .close closed => [.closes closed]
  | _ => []

/-- The client lives, and what it did after `before` has left its descriptor open. -/
structure Stands (fd : Int) (before : List Effect) (w : World) : Prop where
  alive : w.alive = true
  watched : w.client.io.fd = fd
  socket : w.client.net_socket = fd
  turns : ∃ new, w.trace = before ++ new ∧ Turns (new.flatMap (acts fd)) {fd} {fd}

variable {fd : Int} {before : List Effect}

theorem note_maintains {e : Effect} (he : Turns (acts fd e) {fd} {fd}) :
    Maintains (Stands fd before) (note e) := by
  intro w hw
  obtain ⟨new, htrace, hturns⟩ := hw.turns
  refine ⟨hw.alive, hw.watched, hw.socket, new ++ [e], ?_, ?_⟩
  · rw [← List.append_assoc, ← htrace]
  · rw [List.flatMap_append, List.flatMap_singleton]
    exact hturns.append he

theorem io_set_maintains (events : Events) : Maintains (Stands fd before) (io_set events) := by
  unfold io_set
  apply Maintains.bind
  · exact maintains_modify fun w hw => ⟨hw.alive, hw.watched, hw.socket, hw.turns⟩
  · exact fun _ => note_maintains (e := .io_set events) (turns_nil _)

theorem note_write_queue_maintains : Maintains (Stands fd before) (note .write_queue) :=
  note_maintains (turns_nil _)

theorem set_queue_maintains (f : IoQueue → IoQueue) : Maintains (Stands fd before)
    (modify fun w => { w with client.write_queue := f w.client.write_queue } : Handler Unit) :=
  maintains_modify fun _ hw => ⟨hw.alive, hw.watched, hw.socket, hw.turns⟩

theorem queue_empty_maintains : Maintains (Stands fd before) queue_empty :=
  note_write_queue_maintains.bind fun _ => Maintains.get_bind fun _ => maintains_pure _

theorem queue_push_back_maintains (data : IoRecord) :
    Maintains (Stands fd before) (queue_push_back data) :=
  note_write_queue_maintains.bind fun _ => set_queue_maintains fun q => (q.push_back data).1

theorem queue_push_front_maintains (data : IoRecord) :
    Maintains (Stands fd before) (queue_push_front data) :=
  note_write_queue_maintains.bind fun _ => set_queue_maintains fun q => q.push_front data

theorem queue_pop_front_maintains : Maintains (Stands fd before) queue_pop_front := by
  unfold queue_pop_front
  apply note_write_queue_maintains.bind
  intro _
  apply Maintains.get_bind
  intro w
  apply Maintains.bind
  · exact set_queue_maintains fun _ => w.client.write_queue.pop_front.2
  · exact fun _ => maintains_pure _

theorem write_data_maintains (data : List UInt8) : Maintains (Stands fd before) (write_data data) :=
  (queue_push_back_maintains _).bind fun _ => io_set_maintains _

theorem push_write_queue_maintains (result : WriteResult) :
    Maintains (Stands fd before) (push_write_queue result) := by
  unfold push_write_queue
  apply queue_empty_maintains.bind
  intro empty
  apply Maintains.ite
  · exact fun _ => io_set_maintains _
  · intro _
    apply queue_pop_front_maintains.bind
    intro buffer
    apply Maintains.bind
    · exact note_maintains (e := .write buffer.bytes _)
        (turns_uses (Multiset.mem_singleton_self fd))
    intro _
    apply Maintains.ite
    · exact fun _ => queue_push_front_maintains _
    · intro _
      apply Maintains.ite
      · exact fun _ => maintains_throw _
      · exact fun _ => queue_push_front_maintains _

theorem cb_ev_rest_maintains (events : Events) (result : WriteResult) :
    Maintains (Stands fd before) (cb_ev_rest events result) := by
  have hrest : Maintains (Stands fd before) (do
      if ← queue_empty then
        io_set ev.READ
      else
        io_set (ev.READ ||| ev.WRITE)) := by
    apply queue_empty_maintains.bind
    exact fun _ => Maintains.ite (fun _ => io_set_maintains _) (fun _ => io_set_maintains _)
  unfold cb_ev_rest
  apply Maintains.ite
  · exact fun _ => (push_write_queue_maintains result).bind fun _ => hrest
  · exact fun _ => hrest

theorem cb_ev_maintains {events : Events} {received : RecvResult}
    (hreceived : ¬ has events ev.ERROR → has events ev.READ → received ≠ .data [])
    (result : WriteResult) : Maintains (Stands fd before) (cb_ev events received result) := by
  unfold cb_ev
  apply Maintains.ite
  · exact fun _ => maintains_pure _
  intro herror
  apply Maintains.ite
  · intro hread
    apply Maintains.bind
    · exact note_maintains (e := .recv _) (turns_uses (Multiset.mem_singleton_self fd))
    intro _
    apply Maintains.ite
    · exact fun _ => maintains_throw _
    intro _
    apply Maintains.ite
    · exact fun hzero => absurd ((recv_eq_zero_iff received).mp hzero) (hreceived herror hread)
    intro _
    apply Maintains.bind
    · apply Maintains.bind
      · exact note_maintains (e := .in_data_cb _) (turns_nil _)
      · exact fun _ => maintains_modify fun _ hw => ⟨hw.alive, hw.watched, hw.socket, hw.turns⟩
    · exact fun _ => maintains_pure _
  · exact fun _ => (cb_ev_rest_maintains events result).bind fun _ => maintains_pure _

/-- The descriptor that the client has while it lives. -/
structure Handled (fd : Int) (w : World) : Prop where
  watched : w.client.io.fd = fd
  socket : w.client.net_socket = if w.alive then fd else -1

/-- What a client has open. -/
def held (fd : Int) (w : World) : Multiset Int := if w.alive then {fd} else 0

/-- What a call makes of the client and of the table. -/
structure Moves (fd : Int) (w w' : World) : Prop where
  handled : Handled fd w'
  turns : ∃ new, w'.trace = w.trace ++ new ∧
    Turns (new.flatMap (acts fd)) (held fd w) (held fd w')

theorem moves_of_stands {w w' : World} (ha : w.alive = true) (hw' : Stands fd w.trace w') :
    Moves fd w w' := by
  obtain ⟨new, htrace, hturns⟩ := hw'.turns
  have hsocket : w'.client.net_socket = if w'.alive then fd else -1 := by
    rw [if_pos hw'.alive]
    exact hw'.socket
  refine ⟨⟨hw'.watched, hsocket⟩, new, htrace, ?_⟩
  unfold held
  rwa [if_pos ha, if_pos hw'.alive]

theorem Handled.stands {w : World} (hw : Handled fd w) (ha : w.alive = true) :
    Stands fd w.trace w := by
  have hsocket := hw.socket
  rw [if_pos ha] at hsocket
  exact ⟨ha, hw.watched, hsocket, [], (List.append_nil _).symm, turns_nil _⟩

/-- A call of a client that lives keeps to its descriptor. -/
theorem moves_call {h : Handler Outcome} {w w' : World} {o : Outcome}
    (hh : Maintains (Stands fd w.trace) h) (hw : Handled fd w) (ha : w.alive = true)
    (hcall : call h w = (o, w')) : Moves fd w w' := by
  have hstands := hw.stands ha
  apply moves_of_stands ha
  unfold call at hcall
  cases hrun : h w with
  | ok o₁ w₁ =>
    rw [hrun] at hcall
    cases hcall
    exact hh.of_ok hstands hrun
  | error e w₁ =>
    rw [hrun] at hcall
    cases hcall
    exact hh.of_error hstands hrun

/-- The destructor closes the descriptor, and a second time there is none to close. -/
theorem moves_destructed (hfd : 0 ≤ fd) {w : World} (hw : Handled fd w) :
    Moves fd w (destructed w) := by
  refine ⟨⟨hw.watched, rfl⟩, farewell w.client, rfl, ?_⟩
  have hends : held fd (destructed w) = 0 := rfl
  have hacts : (farewell w.client).flatMap (acts fd) =
      if w.client.net_socket ≥ 0 then [.closes w.client.net_socket] else [] := by
    unfold farewell
    split_ifs <;> rfl
  rw [hends, hacts, hw.socket]
  unfold held
  cases w.alive with
  | true =>
    rw [if_pos rfl, if_pos hfd, if_pos rfl]
    exact turns_closes fd 0
  | false => exact turns_nil 0

/-- What one step of a client makes of the table. -/
theorem moves_step (hfd : 0 ≤ fd) {w w' : World} {s : Step} {o : Outcome} (hw : Handled fd w)
    (hs : Survives w s) (h : step w s = some (o, w')) : Moves fd w w' := by
  cases s with
  | write_data data =>
    simp only [step] at h
    split_ifs at h with ha
    have hkeeps : Maintains (Stands fd w.trace) (do write_data data; return Outcome.returned) :=
      (write_data_maintains data).bind fun _ => maintains_pure _
    exact moves_call hkeeps hw ha (Option.some.inj h)
  | cb_ev events received result =>
    simp only [step] at h
    split_ifs at h with ha
    exact moves_call (cb_ev_maintains hs result) hw ha (Option.some.inj h)
  | in_data_cb_returns result =>
    have ha : w.alive = true := hs
    simp only [step] at h
    split at h
    · cases h
    · rename_i events frames hframes
      have hkeeps : Maintains (Stands fd w.trace)
          (do cb_ev_rest events result; return Outcome.returned) :=
        (cb_ev_rest_maintains events result).bind fun _ => maintains_pure _
      have hmoves := moves_call (w := { w with frames }) hkeeps ⟨hw.watched, hw.socket⟩ ha
        (Option.some.inj h)
      exact ⟨hmoves.handled, hmoves.turns⟩
  | in_data_cb_throws =>
    simp only [step] at h
    split at h
    · cases h
    · cases h
      exact ⟨⟨hw.watched, hw.socket⟩, [], (List.append_nil _).symm, turns_nil _⟩
  | destroy =>
    simp only [step] at h
    split_ifs at h
    rw [call_ok (destruct_eq w)] at h
    cases h
    exact moves_destructed hfd hw

end TcpClient

/-! ## The socket of a server -/

/-- A call of the system in the life of a server's socket. -/
inductive ListenCall
  | socket (family : Family)
  | bind (fd : Int) (socket_identifier : SocketAddr)
  | fcntl_getfl (fd : Int)
  | fcntl_setfl (fd : Int)
  | listen (fd : Int) (backlog : Nat)
  | close (fd : Int)
deriving DecidableEq, Repr

namespace ListeningSocket

/-- The constructor with its calls. The destructor of `socket_fd` closes what has not been
moved on. -/
def construct (sys : ListenAnswers) (socket_identifier : SocketAddr) :
    Except Exn ListeningSocket × List ListenCall :=
  let socket_fd := sys.socket socket_identifier.family
  let calls := [.socket socket_identifier.family]
  if ¬ socket_fd ≥ 0 then (.error (.netio_exception "Failed to create socket fd."), calls)
  else
    let calls := calls ++ [.bind socket_fd socket_identifier]
    if sys.bind socket_identifier ≠ 0 then
      (.error (.netio_exception "Failed to bind to all addresses (FIXME)"),
        calls ++ [.close socket_fd])
    else
      let calls := calls ++ [.fcntl_getfl socket_fd, .fcntl_setfl socket_fd, .listen socket_fd 5]
      if sys.listen = -1 then
        (.error (.netio_exception "Failed to enable listening mode for raw socket"),
          calls ++ [.close socket_fd])
      else (.ok ⟨socket_fd, socket_identifier.family⟩, calls)

/-- The end of the server, with `~auto_fd` of its socket. -/
def destruct (server : ListeningSocket) : List ListenCall :=
  if server.socket_fd ≥ 0 then [.close server.socket_fd] else []

/-- What a call does to the table. -/
def acts (sys : ListenAnswers) : ListenCall → List (Act Int)
  | .socket family => opened (sys.socket family)
  | .bind fd _ => [.uses fd]
  | .fcntl_getfl fd => [.uses fd]
  | .fcntl_setfl fd => [.uses fd]
  | .listen fd _ => [.uses fd]
  | .close fd => [.closes fd]

theorem construct_eq (sys : ListenAnswers) (socket_identifier : SocketAddr) :
    (construct sys socket_identifier).1 = of_socketaddr sys socket_identifier := by
  unfold construct of_socketaddr
  dsimp only
  split_ifs <;> rfl

/-- A constructor that throws closes its socket. -/
theorem turns_construct (sys : ListenAnswers) (socket_identifier : SocketAddr) :
    Turns ((construct sys socket_identifier).2.flatMap (acts sys)) 0
      (match (construct sys socket_identifier).1 with
        | .ok server => {server.socket_fd}
        | .error _ => 0) := by
  have hopened := turns_opened (sys.socket socket_identifier.family) 0
  rw [zero_add] at hopened
  have huses := turns_uses (Multiset.mem_singleton_self (sys.socket socket_identifier.family))
  have hcloses := turns_closes (sys.socket socket_identifier.family) 0
  unfold construct
  dsimp only
  split_ifs with hfd hbind hlisten
  · rw [owned_of_valid hfd] at hopened
    exact hopened.append (huses.append hcloses)
  · rw [owned_of_valid hfd] at hopened
    exact hopened.append (huses.append (huses.append (huses.append (huses.append hcloses))))
  · rw [owned_of_valid hfd] at hopened
    exact hopened.append (huses.append (huses.append (huses.append huses)))
  · rw [owned_of_invalid hfd] at hopened
    exact hopened.append (turns_nil 0)

theorem valid_of_construct {sys : ListenAnswers} {socket_identifier : SocketAddr}
    {server : ListeningSocket} (h : (construct sys socket_identifier).1 = .ok server) :
    server.socket_fd ≥ 0 := by
  rw [construct_eq] at h
  unfold of_socketaddr at h
  dsimp only at h
  split_ifs at h with hfd hbind hlisten
  cases h
  exact hfd

theorem turns_destruct (sys : ListenAnswers) (server : ListeningSocket)
    (hfd : server.socket_fd ≥ 0) (others : Multiset Int) :
    Turns (server.destruct.flatMap (acts sys)) (server.socket_fd ::ₘ others) others := by
  unfold destruct
  rw [if_pos hfd]
  exact turns_closes server.socket_fd others

end ListeningSocket

/-! ## The run of a server -/

namespace TcpServerSocket

/-- The descriptors of the clients that live. -/
def opens (s : TcpServerSocket) : Multiset Int :=
  (s.clients.map fun a => TcpClient.held a.client_fd_raw a.world).sum

/-- What client `i` did between two states of the server. -/
def news (s u : TcpServerSocket) (i : Nat) : List (Act Int) :=
  match s.clients[i]?, u.clients[i]? with
  | some a, some b =>
    (b.world.trace.drop a.world.trace.length).flatMap (TcpClient.acts a.client_fd_raw)
  | _, _ => []

/-- What a step does to the table. An accepted descriptor goes through `fcntl` twice, and a
listener's call that ends destroys its client. -/
def acts (listening_fd : Int) (s u : TcpServerSocket) : Step → List (Act Int)
  | .accept fd _ _ => [.uses listening_fd, .opens fd, .uses fd, .uses fd]
  | .accept_fails => [.uses listening_fd]
  | .client i _ => s.news u i
  | .client_listener_returns | .client_listener_throws =>
    match s.waiting with
    | .client_listener i :: _ => s.news u i
    | _ => []

/-- What a run does to the table. -/
def log (listening_fd : Int) (s : TcpServerSocket) (steps : List Step) : List (Act Int) :=
  outputs next (fun s t u => s.acts listening_fd u t) s steps

/-- No call of a client goes on over its destruction. -/
def Survives (s : TcpServerSocket) : Step → Prop
  | .client i t => ∀ a, s.clients[i]? = some a → TcpClient.Survives a.world t
  | _ => True

/-- Each client has its descriptor as long as it lives, and it lives in a call of the
listener. -/
structure Accounts (s : TcpServerSocket) : Prop where
  handled : ∀ a ∈ s.clients, TcpClient.Handled a.client_fd_raw a.world
  waits : ∀ (i : Nat) (a : Accepted), s.clients[i]? = some a → a.world.alive = true →
    .client_listener i ∈ s.waiting

theorem accounts_listening : Accounts listening := by
  constructor <;> simp [listening]

variable {s u : TcpServerSocket} {i : Nat} {a : Accepted} {w : World}

/-- Client `i` moves on, and the others keep what they have. -/
theorem turns_news (ha : s.clients[i]? = some a)
    (hu : u.clients = s.clients.set i { a with world := w })
    (hmoves : TcpClient.Moves a.client_fd_raw a.world w) :
    Turns (s.news u i) s.opens u.opens := by
  obtain ⟨hi, _⟩ := List.getElem?_eq_some_iff.mp ha
  obtain ⟨new, htrace, hturns⟩ := hmoves.turns
  obtain ⟨others, hbefore, hafter⟩ :=
    exists_others (fun a : Accepted => TcpClient.held a.client_fd_raw a.world) ha
  have hnews : s.news u i = new.flatMap (TcpClient.acts a.client_fd_raw) := by
    unfold news
    rw [ha, hu, List.getElem?_set_self hi]
    simp [htrace]
  unfold opens
  rw [hnews, hbefore, hu, hafter]
  exact hturns.frame others

theorem handled_set (h : s.Accounts)
    (hu : u.clients = s.clients.set i { a with world := w })
    (hmoves : TcpClient.Moves a.client_fd_raw a.world w) :
    ∀ b ∈ u.clients, TcpClient.Handled b.client_fd_raw b.world := by
  intro b hb
  rw [hu] at hb
  rcases List.mem_or_eq_of_mem_set hb with hb | rfl
  · exact h.handled b hb
  · exact hmoves.handled

theorem client_step_moves {t : TcpClient.Step} (h : s.Accounts)
    (hs : s.Survives (.client i t)) (hu : s.client_step i t = some u) :
    ∃ a w, s.clients[i]? = some a ∧ u.clients = s.clients.set i { a with world := w } ∧
      TcpClient.Moves a.client_fd_raw a.world w := by
  obtain ⟨a, o, w, ha, hstep, hclients⟩ := exists_client_step hu
  exact ⟨a, w, ha, hclients, TcpClient.moves_step (Int.natCast_nonneg _)
    (h.handled a (List.mem_of_getElem? ha)) (hs a ha) hstep⟩

/-- A client that lives when another has moved on lived before, and its listener's call
still lasts. -/
theorem waits_settle {waiting : List Waiting} (h : s.Accounts) (ha : s.clients[i]? = some a)
    (hlive : w.alive = true → .client_listener i ∈ waiting)
    (hwaiting : ∀ j, j ≠ i → .client_listener j ∈ s.waiting → .client_listener j ∈ waiting)
    (j : Nat) (b : Accepted) (hb : (s.settle i a w).clients[j]? = some b)
    (halive : b.world.alive = true) : .client_listener j ∈ waiting := by
  obtain ⟨hi, _⟩ := List.getElem?_eq_some_iff.mp ha
  unfold settle at hb
  by_cases hj : j = i
  · subst hj
    rw [List.getElem?_set_self hi] at hb
    cases hb
    exact hlive halive
  · rw [List.getElem?_set_ne (Ne.symm hj)] at hb
    exact hwaiting j hj (h.waits j b hb halive)

theorem Accounts.accept (h : s.Accounts) (fd : Nat) (address : String) (port : Nat) :
    (s.await_raw_socket_incomming fd address port).Accounts := by
  constructor
  · intro b hb
    rcases List.mem_append.mp hb with hb | hb
    · exact h.handled b hb
    · rw [List.mem_singleton.mp hb]
      exact ⟨rfl, rfl⟩
  · intro j b hb halive
    unfold await_raw_socket_incomming at hb ⊢
    by_cases hj : j < s.clients.length
    · rw [List.getElem?_append_left hj] at hb
      exact List.mem_cons_of_mem _ (h.waits j b hb halive)
    · rw [List.getElem?_append_right (Nat.le_of_not_lt hj)] at hb
      have hlast := (List.getElem?_eq_some_iff.mp hb).1
      rw [List.length_singleton] at hlast
      obtain rfl : j = s.clients.length := by omega
      exact List.mem_cons_self

theorem opens_accept (fd : Nat) (address : String) (port : Nat) :
    (s.await_raw_socket_incomming fd address port).opens = (fd : Int) ::ₘ s.opens := by
  unfold opens await_raw_socket_incomming
  rw [List.map_append, List.sum_append, List.map_singleton, List.sum_singleton, add_comm]
  rfl

theorem listener_ends_moves (h : s.Accounts) (hu : s.listener_ends = some u) :
    u.Accounts ∧ ∃ i rest, s.waiting = .client_listener i :: rest ∧
      Turns (s.news u i) s.opens u.opens := by
  obtain ⟨i, rest, a, hwaiting, ha, rfl⟩ := listener_ends_cases hu
  have hmoves := TcpClient.moves_destructed (Int.natCast_nonneg a.client_fd_raw)
    (h.handled a (List.mem_of_getElem? ha))
  refine ⟨⟨handled_set h rfl hmoves, ?_⟩, i, rest, hwaiting, turns_news ha rfl hmoves⟩
  apply waits_settle h ha
  · intro hdead
    cases hdead
  · intro j hj hmem
    rw [hwaiting] at hmem
    rcases List.mem_cons.mp hmem with heq | hrest
    · exact absurd (Waiting.client_listener.inj heq) hj
    · exact hrest

/-- What each step does to the table. -/
theorem accounts_next {t : Step} (listening_fd : Int) (hkept : s.Kept) (h : s.Accounts)
    (hs : s.Survives t) (hu : s.next t = some u) :
    u.Accounts ∧ Turns (s.acts listening_fd u t) (listening_fd ::ₘ s.opens)
      (listening_fd ::ₘ u.opens) := by
  have hbeside : ∀ {acts : List (Act Int)}, Turns acts s.opens u.opens →
      Turns acts (listening_fd ::ₘ s.opens) (listening_fd ::ₘ u.opens) := by
    intro acts hturns
    have hframe := hturns.frame {listening_fd}
    rwa [add_comm, add_comm u.opens, Multiset.singleton_add, Multiset.singleton_add] at hframe
  have huses := turns_uses (Multiset.mem_cons_self listening_fd s.opens)
  have hends : s.listener_ends = some u → u.Accounts ∧
      Turns (match s.waiting with | .client_listener i :: _ => s.news u i | _ => [])
        (listening_fd ::ₘ s.opens) (listening_fd ::ₘ u.opens) := by
    intro hu
    obtain ⟨haccounts, i, rest, hwaiting, hturns⟩ := listener_ends_moves h hu
    rw [hwaiting]
    exact ⟨haccounts, hbeside hturns⟩
  cases t with
  | accept fd address port =>
    simp only [next] at hu
    split_ifs at hu
    cases hu
    refine ⟨h.accept fd address port, ?_⟩
    have hfcntl := turns_uses (Multiset.mem_cons_self (fd : Int) (listening_fd ::ₘ s.opens))
    rw [opens_accept, Multiset.cons_swap]
    exact huses.append ((turns_opens (fd : Int) _).append (hfcntl.append hfcntl))
  | accept_fails =>
    cases hu
    exact ⟨h, huses⟩
  | client i t =>
    obtain ⟨a, w, ha, hclients, hmoves⟩ := client_step_moves h hs hu
    refine ⟨⟨handled_set h hclients hmoves, ?_⟩, hbeside (turns_news ha hclients hmoves)⟩
    obtain ⟨a', w', waiting, ha', rfl, hcount, hcalm⟩ := client_step_cases hkept hu
    have hmem : ∀ j, .client_listener j ∈ s.waiting → .client_listener j ∈ waiting := by
      intro j hj
      rw [← List.count_pos_iff, hcount j]
      exact List.count_pos_iff.mpr hj
    apply waits_settle h ha'
    · intro halive
      rcases hcalm with hcalm | ⟨hdies, _⟩
      · exact hmem i (h.waits i a' ha' (hcalm.alive ▸ halive))
      · rw [hdies.after] at halive
        cases halive
    · exact fun j _ hj => hmem j hj
  | client_listener_returns => exact hends hu
  | client_listener_throws => exact hends hu

/-- The run of a server keeps to what is open. -/
theorem turns_log (listening_fd : Int) (hkept : s.Kept) (h : s.Accounts) {steps : List Step}
    (hok : Meets next Survives s steps) (hrun : run next s steps = some u) :
    u.Accounts ∧ Turns (s.log listening_fd steps) (listening_fd ::ₘ s.opens)
      (listening_fd ::ₘ u.opens) := by
  induction steps generalizing s with
  | nil =>
    cases hrun
    exact ⟨h, turns_nil _⟩
  | cons t rest ih =>
    simp only [run, Option.bind_eq_some_iff] at hrun
    obtain ⟨v, hv, hrun⟩ := hrun
    obtain ⟨hfirst, hturns⟩ := accounts_next listening_fd hkept h hok.1 hv
    obtain ⟨hlast, hrest⟩ := ih (kept_next hkept hv) hfirst (hok.2 v hv) hrun
    refine ⟨hlast, ?_⟩
    unfold log
    rw [outputs_cons next _ hv]
    exact hturns.append hrest

/-- When no call of the listener lasts, no client lives. -/
theorem Accounts.opens_nil (h : s.Accounts) (hidle : s.waiting = []) : s.opens = 0 := by
  unfold opens
  apply List.sum_eq_zero
  intro table htable
  obtain ⟨a, ha, rfl⟩ := List.mem_map.mp htable
  obtain ⟨j, hj⟩ := List.getElem?_of_mem ha
  cases halive : a.world.alive with
  | true =>
    have hwaits := h.waits j a hj halive
    rw [hidle] at hwaits
    cases hwaits
  | false =>
    unfold TcpClient.held
    rw [halive, if_neg (by decide)]

/-- A server that cannot be made closes its socket. One that is made has, after each run in
which no call goes on over a destroyed client, its own socket open and those of the clients
that live; and at the end, when no call of the listener lasts, it has closed all of them. -/
theorem a_server_closes_what_it_opens (sys : ListenAnswers) (socket_identifier : SocketAddr)
    {steps : List Step} (hok : Meets next Survives listening steps)
    (hrun : run next listening steps = some s) (others : Multiset Int) :
    match ListeningSocket.construct sys socket_identifier with
    | (.error e, calls) =>
      ListeningSocket.of_socketaddr sys socket_identifier = .error e ∧
        Turns (calls.flatMap (ListeningSocket.acts sys)) others others
    | (.ok server, calls) =>
      ListeningSocket.of_socketaddr sys socket_identifier = .ok server ∧
        Turns (calls.flatMap (ListeningSocket.acts sys) ++ listening.log server.socket_fd steps)
          others (server.socket_fd ::ₘ s.opens + others) ∧
        (s.waiting = [] → Turns (calls.flatMap (ListeningSocket.acts sys) ++
          listening.log server.socket_fd steps ++
            server.destruct.flatMap (ListeningSocket.acts sys)) others others) := by
  have heq := ListeningSocket.construct_eq sys socket_identifier
  have hvalid : ∀ server, (ListeningSocket.construct sys socket_identifier).1 = .ok server →
      server.socket_fd ≥ 0 := fun _ => ListeningSocket.valid_of_construct
  have hturns := (ListeningSocket.turns_construct sys socket_identifier).frame others
  rw [zero_add] at hturns
  revert heq hvalid hturns
  rcases ListeningSocket.construct sys socket_identifier with ⟨server | server, calls⟩
  · intro heq _ hturns
    rw [zero_add] at hturns
    exact ⟨heq.symm, hturns⟩
  · intro heq hvalid hturns
    obtain ⟨haccounts, hlog⟩ :=
      turns_log server.socket_fd kept_listening accounts_listening hok hrun
    have hrest := hturns.append (hlog.frame others)
    refine ⟨heq.symm, hrest, ?_⟩
    intro hidle
    rw [haccounts.opens_nil hidle] at hrest
    exact hrest.append (ListeningSocket.turns_destruct sys server (hvalid server rfl) others)

/-- A server and two of its clients, with a table that has the standard streams. -/
theorem a_server_closes_its_socket_and_two_clients :
    let steps : List Step := [.accept 5 "10.0.0.1" 4000,
      .client 0 (.cb_ev ev.READ (.data [1]) (.accepts 0)), .accept 6 "10.0.0.2" 4001,
      .client 1 (.write_data [7]), .client_listener_returns,
      .client 0 (.in_data_cb_returns (.accepts 0)), .client_listener_throws]
    let sys : ListenAnswers := ⟨fun _ => 3, fun _ => 0, 0⟩
    let any_port : SocketAddr := ⟨⟨AF_INET, List.replicate 14 0⟩, 16⟩
    Turns ((ListeningSocket.construct sys any_port).2.flatMap (ListeningSocket.acts sys) ++
      listening.log 3 steps ++ [.closes 3]) {0, 1, 2} {0, 1, 2} := by
  intro steps sys any_port
  obtain ⟨s, hs, hidle⟩ : ∃ s, run next listening steps = some s ∧ s.waiting = [] :=
    ⟨_, rfl, by decide⟩
  have hok : Meets next Survives listening steps := by
    refine ⟨trivial, fun t ht => ?_⟩
    cases ht
    refine ⟨fun _ _ _ _ => by decide, fun t ht => ?_⟩
    cases ht
    refine ⟨trivial, fun t ht => ?_⟩
    cases ht
    refine ⟨fun _ _ => trivial, fun t ht => ?_⟩
    cases ht
    refine ⟨trivial, fun t ht => ?_⟩
    cases ht
    refine ⟨fun a ha => ?_, fun t _ => ⟨trivial, fun _ _ => trivial⟩⟩
    cases ha
    rfl
  exact (a_server_closes_what_it_opens sys any_port hok hs {0, 1, 2}).2.2 hidle

end TcpServerSocket

end rmrf.net
