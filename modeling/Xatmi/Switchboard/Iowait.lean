import Xatmi.Lib.Walk
import Xatmi.Switchboard.Exchange
import Xatmi.Switchboard.Progress
import Xatmi.Switchboard.Scenario

/-!
# A round of `Iowait`

`Iowait` asks `select` for the readable descriptors, takes a new connection if there is one, and
then walks over `tpclients`, on which clients are deleted meanwhile. Runs were defined as sequences
of events; a round is such a run, with one event for the connection and one for every ready client.
-/

namespace Xatmi
namespace Switchboard

open Walk

/-- A file descriptor. -/
abbrev Fd := Nat

/-- The process: its memory, and the descriptors of the clients. -/
structure Server where
  board : State
  fd : ClientId → Fd

/-- What the system calls of a round return, and the choices of the environment while a client is
served. -/
structure Round where
  /-- The descriptors that `select` finds readable; none if it fails. -/
  report : Option (Fd → Bool)
  /-- The descriptor that `accept` returns; none if it fails. -/
  accepted : Option Fd
  greeting : Env
  env : ClientId → Env
  /-- What `read` has to give. -/
  input : ClientId → Option Bytes

section Iowait

variable (master : Fd) (round : Round)

/-- The first loop: the descriptors to watch, and the greatest of them. -/
def Server.watch (s : Server) : Fd × List Fd :=
  s.board.clients.foldl
    (fun (maxfd, readfds) c => (if s.fd c > maxfd then s.fd c else maxfd, s.fd c :: readfds))
    (master, [master])

/-- `select(nfds, &readfds, 0, 0, 0)` leaves the readable ones of the descriptors below `nfds`. -/
def select (nfds : Nat) (readfds : List Fd) (report : Fd → Bool) : List Fd :=
  readfds.filter fun d => d < nfds && report d

/-- What `select` leaves in `readfds`. -/
def Server.readable (s : Server) (report : Fd → Bool) : List Fd :=
  let (maxfd, readfds) := s.watch master
  select (maxfd + 1) readfds report

/-- The connection on the master socket, if there is one. -/
def Server.greet (s : Server) (readfds : List Fd) : Except Fault Server :=
  if master ∈ readfds then
    match round.accepted with
    | none => .ok s
    | some d => (step s.board ⟨round.greeting, .connect⟩).map fun board =>
        ⟨board, fun c => if c = s.board.next then d else s.fd c⟩
  else
    .ok s

/-- The connection that the round takes, as an event. -/
def Round.connections (report : Fd → Bool) : List Event :=
  if report master then round.accepted.toList.map fun _ => ⟨round.greeting, .connect⟩ else []

/-- The event that client `c` is readable. -/
def Round.event (c : ClientId) : Event :=
  ⟨round.env c, .ready c (round.input c)⟩

/-- The second loop. -/
def Round.loop (fd : ClientId → Fd) (readfds : List Fd) : Walker Fault Server ClientId where
  items s := s.board.clients
  wanted c := fd c ∈ readfds
  work c s := (step s.board (round.event c)).map fun board => { s with board }
  dangling := .useAfterFree

/-- `Iowait`, with the clients it has served. -/
def iowait (s : Server) : Except Fault (Server × List ClientId) :=
  match round.report with
  | none => .ok (s, [])
  | some report =>
      let readfds := s.readable master report
      (s.greet master round readfds).bind fun s =>
        let loop := round.loop s.fd readfds
        (loop.iterate .diverges s.board.clients.length (loop.enter s)).map fun l =>
          (l.state, l.worked)

end Iowait

/-! ## Watched descriptors -/

variable {master : Fd} {round : Round} {s : Server} {report : Fd → Bool}

theorem watch_spec (master : Fd) (s : Server) : (∀ d ∈ (s.watch master).2, d ≤ (s.watch master).1) ∧
    ∀ d, d ∈ (s.watch master).2 ↔ d = master ∨ ∃ c ∈ s.board.clients, s.fd c = d := by
  have general : ∀ (clients : List ClientId) (maxfd : Fd) (readfds : List Fd),
      (∀ d ∈ readfds, d ≤ maxfd) →
      let (maxfd', readfds') := clients.foldl
        (fun (maxfd, readfds) c => (if s.fd c > maxfd then s.fd c else maxfd, s.fd c :: readfds))
        (maxfd, readfds)
      (∀ d ∈ readfds', d ≤ maxfd') ∧ ∀ d, d ∈ readfds' ↔ d ∈ readfds ∨ ∃ c ∈ clients,
      s.fd c = d := by
    intro clients
    induction clients with
    | nil => simp
    | cons c clients ih =>
        intro maxfd readfds bounded
        have bounded' : ∀ d ∈ s.fd c :: readfds, d ≤ if s.fd c > maxfd then s.fd c else maxfd := by
          intro d member
          rcases List.mem_cons.mp member with rfl | member
          · split
            · exact Nat.le_refl _
            · next small => exact Nat.le_of_not_lt small
          · split
            · next great => exact Nat.le_trans (bounded d member) (Nat.le_of_lt great)
            · exact bounded d member
        obtain ⟨below, members⟩ := ih _ _ bounded'
        refine ⟨below, fun d => (members d).trans ?_⟩
        simp only [List.mem_cons, exists_eq_or_imp]
        grind
  obtain ⟨below, members⟩ := general s.board.clients master [master] (by simp)
  exact ⟨below, fun d => (members d).trans (by simp)⟩

theorem mem_readable_iff {d : Fd} : d ∈ s.readable master report ↔
    (d = master ∨ ∃ c ∈ s.board.clients, s.fd c = d) ∧ report d = true := by
  obtain ⟨below, members⟩ := watch_spec master s
  simp only [Server.readable, select, List.mem_filter, members, Bool.and_eq_true, decide_eq_true_eq]
  constructor
  · rintro ⟨watched, _, reported⟩
    exact ⟨watched, reported⟩
  · rintro ⟨watched, reported⟩
    exact ⟨watched, Nat.lt_succ_of_le (below d ((members d).mpr watched)), reported⟩

/-! ## Serving one client -/

theorem clients_of_ready {σ τ : State} {e : Event} {c : ClientId} {input : Option Bytes}
    (inv : Inv ⟨{}, σ⟩) (source : e.happening = .ready c input) (done : step σ e = .ok τ) :
    τ.clients = σ.clients ∨ τ.clients = σ.clients.erase c := by
  have along : ∀ {κ : Conf}, Trace σ e ⟨{}, σ⟩ κ →
      κ.state.clients = σ.clients ∨ κ.state.clients = σ.clients.erase c := by
    intro κ trace
    induction trace with
    | refl => exact .inl rfl
    | tail sofar eff ih =>
        cases eff with
        | connect accepted => cases source.symm.trans accepted
        | @dropClient φ ρ k x closing =>
            obtain ⟨_, source'⟩ := (closes_of_trace sofar closing).source
            obtain ⟨rfl, _⟩ := Happening.ready.inj (source.symm.trans source')
            right
            rcases ih with same | erased
            · exact congrArg (List.erase · c) same
            · have gone : c ∉ σ.clients.erase c := inv.registry.clients_nodup.not_mem_erase
              exact (congrArg (List.erase · c) erased).trans (List.erase_of_not_mem gone)
        | _ => exact ih
  exact along (step_trace inv done)

theorem loop_local (round : Round) (fd : ClientId → Fd) (readfds : List Fd) :
    (round.loop fd readfds).Local fun s => Reachable anyStep s.board where
  nodup s reach := (inv_of_reachable reach).registry.clients_nodup
  kept c s s' reach _ served := by
    cases done : step s.board (round.event c) with
    | error fault => simp [Round.loop, done, Except.map] at served
    | ok τ =>
        simp only [Round.loop, done, Except.map] at served
        obtain rfl := Except.ok.inj served
        exact ⟨.next reach trivial done, clients_of_ready (inv_of_reachable reach) rfl done⟩

/-! ## The round -/

theorem greet_spec (master : Fd) (round : Round) (s : Server) (report : Fd → Bool) :
    ∃ s', s.greet master round (s.readable master report) = .ok s' ∧
      run s.board (round.connections master report) = .ok s'.board ∧
      (s' = s ∨ ∃ d, round.accepted = some d ∧
        s'.board.clients = s.board.clients ++ [s.board.next] ∧
        s'.fd = fun c => if c = s.board.next then d else s.fd c) := by
  have watched : master ∈ s.readable master report ↔ report master = true :=
    mem_readable_iff.trans ⟨And.right, fun reported => ⟨.inl rfl, reported⟩⟩
  simp only [Server.greet, Round.connections, watched]
  split
  · cases accepted : round.accepted with
    | none => exact ⟨s, rfl, rfl, .inl rfl⟩
    | some d =>
        have made := step_connect (σ := s.board) (e := ⟨round.greeting, .connect⟩) rfl
        simp only [made]
        exact ⟨_, rfl, run_cons_ok_iff.mpr ⟨_, made, rfl⟩, .inr ⟨d, rfl, rfl, rfl⟩⟩
  · exact ⟨s, rfl, rfl, .inl rfl⟩

theorem run_of_work {fd : ClientId → Fd} {readfds : List Fd} {served : List ClientId} {t : Server}
    (done : served.foldlM (fun s c => (round.loop fd readfds).work c s) s = .ok t) :
    run s.board (served.map round.event) = .ok t.board := by
  induction served generalizing s with
  | nil =>
      obtain rfl := Except.ok.inj done
      rfl
  | cons c served ih =>
      rw [List.foldlM_cons] at done
      cases first : step s.board (round.event c) with
      | error fault =>
          simp only [Round.loop, first, Except.map] at done
          cases done
      | ok τ =>
          simp only [Round.loop, first, Except.map] at done
          exact run_cons_ok_iff.mpr ⟨τ, first, ih (s := { s with board := τ }) done⟩

theorem wanted_clients {s' : Server} (reach : Reachable anyStep s.board)
    (fresh : ∀ d, round.accepted = some d → d ≠ master ∧ ∀ c ∈ s.board.clients, s.fd c ≠ d)
    (greeted : s' = s ∨ ∃ d, round.accepted = some d ∧
      s'.board.clients = s.board.clients ++ [s.board.next] ∧
      s'.fd = fun c => if c = s.board.next then d else s.fd c) :
    s'.board.clients.filter (round.loop s'.fd (s.readable master report)).wanted =
      s.board.clients.filter fun c => report (s.fd c) := by
  have old : ∀ c ∈ s.board.clients, (s.fd c ∈ s.readable master report ↔ report (s.fd c) = true) :=
    fun c member => mem_readable_iff.trans ⟨And.right, fun reported =>
      ⟨.inr ⟨c, member, rfl⟩, reported⟩⟩
  rcases greeted with rfl | ⟨d, accepted, clients, fd⟩
  · refine List.filter_congr fun c member => ?_
    simp [Round.loop, old c member]
  · obtain ⟨notMaster, unused⟩ := fresh d accepted
    have silent : d ∉ s.readable master report := by
      rw [mem_readable_iff]
      rintro ⟨rfl | ⟨c, member, same⟩, _⟩
      · exact notMaster rfl
      · exact unused c member same
    rw [clients, List.filter_append,
      List.filter_cons_of_neg (by simpa [Round.loop, fd] using silent), List.filter_nil,
      List.append_nil]
    refine List.filter_congr fun c member => ?_
    have earlier : c ≠ s.board.next := ((inv_of_reachable reach).fresh.clients c member).ne
    simp [Round.loop, fd, earlier, old c member]

/-- A round of `Iowait` serves every client that is connected and ready when `select` is called
exactly once, in the order of the list, unless a handler crashes; whenever it goes from one client
to the next, it goes to a connected client or to the end of the list. -/
theorem round_serves_ready_once (reach : Reachable anyStep s.board)
    (reported : round.report = some report)
    (fresh : ∀ d, round.accepted = some d → d ≠ master ∧ ∀ c ∈ s.board.clients, s.fd c ≠ d) :
    ∃ s', s.greet master round (s.readable master report) = .ok s' ∧
      run s.board (round.connections master report) = .ok s'.board ∧
      let loop := round.loop s'.fd (s.readable master report)
      (∀ l, loop.Turns (loop.enter s') l →
        (∀ c, l.cursor = some c → c ∈ l.state.board.clients) ∧
          l.worked <+: s.board.clients.filter (fun c => report (s.fd c)) ∧ l.worked.Nodup ∧
          run s'.board (l.worked.map round.event) = .ok l.state.board) ∧
      ((∃ l, iowait master round s = .ok (l.state, l.worked) ∧ loop.Turns (loop.enter s') l ∧
          l.cursor = none ∧ l.worked = s.board.clients.filter (fun c => report (s.fd c)) ∧
          Reachable anyStep l.state.board) ∨
        ∃ fault l c, iowait master round s = .error fault ∧ loop.Turns (loop.enter s') l ∧
          l.cursor = some c ∧ report (s.fd c) = true ∧ c ∈ s.board.clients ∧
          step l.state.board (round.event c) = .error fault) := by
  obtain ⟨s', greets, connects, greeted⟩ := greet_spec master round s report
  have reach' : Reachable anyStep s'.board := reach.run connects
  refine ⟨s', greets, connects, ?_⟩
  intro loop
  have local_ := loop_local round s'.fd (s.readable master report)
  have start : loop.At (fun s => Reachable anyStep s.board) _ _ _ (loop.enter s') :=
    Walker.at_enter reach'
  have wanted : s'.board.clients.filter loop.wanted =
      s.board.clients.filter fun c => report (s.fd c) := wanted_clients reach fresh greeted
  have rounds : iowait master round s = (loop.iterate .diverges s'.board.clients.length
      (loop.enter s')).map fun l => (l.state, l.worked) := by
    simp only [iowait, reported, greets, Except.bind]
    rfl
  constructor
  · intro l later
    obtain ⟨done, rest, here⟩ := start.turns local_ later
    have initial : l.worked <+: s'.board.clients.filter loop.wanted := by
      rw [here.worked, show s'.board.clients = done ++ rest from here.split, List.filter_append]
      exact List.prefix_append _ _
    have nodup : s'.board.clients.Nodup := (inv_of_reachable reach').registry.clients_nodup
    obtain ⟨served, worked, ran⟩ := Walker.foldlM_worked later
    obtain rfl : l.worked = served := worked
    exact ⟨fun c cursor => here.cursor_mem cursor, by rwa [wanted] at initial,
      (nodup.filter _).sublist initial.sublist, run_of_work ran⟩
  · rw [rounds]
    rcases start.iterate .diverges local_ (Nat.le_refl _) with
      ⟨l, ends, later, there⟩ | ⟨fault, l, c, ends, later, cursor, ready, fails⟩
    · exact .inl ⟨l, congrArg (Except.map fun l => (l.state, l.worked)) ends, later, there.cursor,
        there.worked.trans wanted, there.state⟩
    · right
      obtain ⟨done, rest, here⟩ := start.turns local_ later
      have before : c ∈ s'.board.clients := by
        rw [show s'.board.clients = done ++ rest from here.split]
        exact List.mem_append_right _ (List.mem_of_head? (here.cursor.symm.trans cursor))
      have served := List.mem_filter.mpr ⟨before, ready⟩
      rw [wanted] at served
      obtain ⟨connected, ready⟩ := List.mem_filter.mp served
      refine ⟨fault, l, c, congrArg (Except.map fun l => (l.state, l.worked)) ends, later, cursor,
        ready, connected, ?_⟩
      cases crashes : step l.state.board (round.event c) with
      | error fault' =>
          simp only [Round.loop, crashes, Except.map] at fails
          rw [Except.error.inj fails]
      | ok τ => simp [Round.loop, crashes, Except.map] at fails

/-- A third client connects with descriptor 7, client 0 sends an unknown command, the others hang
up. -/
def busyRound : Round where
  report := some fun _ => true
  accepted := some 7
  greeting := .plain 0 0
  env _ := .plain 0 0
  input c := if c = 0 then some [9] else some []

open Scenario in
theorem round_serves_ready_once_busy :
    ∃ s s' τ : Server, Reachable anyStep s.board ∧ s.board.clients = [0, 2] ∧
      run s.board [⟨.plain 0 0, .connect⟩] = .ok s'.board ∧
      iowait 3 busyRound s = .ok (τ, [0, 2]) ∧
      run s'.board [busyRound.event 0, busyRound.event 2] = .ok τ.board := by
  obtain ⟨σ, -, reach, seen⟩ := reachable_of_outcome [connect, connect]
    (fun σ => decide (σ.clients = [0, 2] ∧
      ((iowait 3 busyRound ⟨σ, (· + 4)⟩).toOption.isSome = true))) true (by decide +kernel)
  obtain ⟨clients, survives⟩ := of_decide_eq_true seen
  let s : Server := ⟨σ, (· + 4)⟩
  have fresh : ∀ d, busyRound.accepted = some d → d ≠ 3 ∧ ∀ c ∈ s.board.clients, s.fd c ≠ d := by
    intro d accepted
    obtain rfl : 7 = d := Option.some.inj accepted
    simp [s, clients]
  obtain ⟨s', _, connects, each, ⟨l, done, later, _, served, _⟩ | ⟨fault, _, _, crashes, _⟩⟩ :=
    round_serves_ready_once (s := s) reach rfl fresh
  · have both : l.worked = [0, 2] := by
      rw [served]
      simp [s, clients]
    obtain ⟨_, _, _, ran⟩ := each l later
    rw [both] at done ran
    exact ⟨s, s', l.state, reach, clients, connects, done, ran⟩
  · change (iowait 3 busyRound s).toOption.isSome = true at survives
    rw [crashes] at survives
    cases survives

end Switchboard
end Xatmi
