import Xatmi.Switchboard.Choosing
import Xatmi.Switchboard.Replies

/-!
# What the switchboard survives

Handler by handler, the code gets through: what it follows is allocated, and `svriowait` is called
only for clients that are not being read from. What is left are four ways to die, two of them by a
worker that breaks the protocol and two by a race: a result that is not expected or has a negative
length, the data of a transaction that is freed while it is being read, and a service that is
withdrawn while a request for it is being sent.
-/

namespace Xatmi
namespace Switchboard

open Program Relation

variable {σ₀ σ τ : State} {e : Event} {φ φ' : Phase} {c : ClientId}

/-! ## What clients leave behind -/

/-- Whatever the switchboard keeps belongs to a client. -/
theorem Inv.deserted (inv : Inv ⟨{}, σ⟩) (deserted : σ.clients = []) :
    (∀ c, σ.client c = none) ∧ (∀ a, σ.advert a = none) ∧ ∀ t, σ.tran t = none := by
  have nobody : ∀ c, σ.client c = none := by
    intro c
    refine Option.eq_none_iff_forall_ne_some.mpr fun x live => ?_
    have connected := (inv.registry.mem_clients c).mpr ⟨x, live⟩
    rw [deserted] at connected
    cases connected
  refine ⟨nobody, fun a => ?_, fun t => ?_⟩
  · refine Option.eq_none_iff_forall_ne_some.mpr fun v advert => ?_
    obtain ⟨x, live, _⟩ := inv.registry.offered a v advert (by simp)
    cases (nobody _).symm.trans live
  · refine Option.eq_none_iff_forall_ne_some.mpr fun tr found => ?_
    obtain ⟨x, live, _⟩ := inv.own.owned t tr found
    cases (nobody _).symm.trans live

/-! ## Data that is being read -/

theorem data_of_effect (all : Inv ⟨φ, σ⟩) (eff : Effect σ₀ e ⟨φ, σ⟩ ⟨φ', τ⟩) {t : TranId}
    {tr : Transaction} (found : σ.tran t = some tr) :
    (∃ tr', τ.tran t = some tr' ∧ tr'.data = tr.data) ∨ τ.buf tr.data = none := by
  have old := (all.waits.old (.tran t) (Option.isSome_of_eq_some found)).1
  have changed : ∀ {key update}, (∀ x : Transaction, (update x).data = x.data) →
      ∃ tr', change σ.tran key update t = some tr' ∧ tr'.data = tr.data := by
    intro key update same
    refine ⟨_, change_eq_some_iff.mpr ⟨tr, found, rfl⟩, ?_⟩
    split
    · exact same tr
    · rfl
  have deleted : ∀ {t' tr'}, σ.tran t' = some tr' → τ.tran = put σ.tran t' none →
      τ.buf tr'.data = none → (∃ tr'', τ.tran t = some tr'' ∧ tr''.data = tr.data) ∨
      τ.buf tr.data = none := by
    intro t' tr' current tran freed
    by_cases same : t = t'
    · subst same
      obtain rfl := Option.some.inj (found.symm.trans current)
      exact .inr freed
    · exact .inl ⟨tr, by rw [tran]; exact (if_neg same).trans found, rfl⟩
  cases eff with
  | submit => exact .inl ⟨tr, (if_neg (old.trans (Nat.lt_succ_self _)).ne).trans found, rfl⟩
  | assignUp | assignWork | finish | fail => exact .inl (changed fun _ => rfl)
  | @setReturn _ _ _ _ t' tr' _ _ _ _ _ _ _ found' room =>
      by_cases same : t = t'
      · subst same
        obtain rfl := Option.some.inj (found.symm.trans found')
        exact .inr ((if_neg (all.data_lt t tr found).ne).trans (if_pos rfl))
      · refine .inl ⟨tr, ?_, rfl⟩
        rw [State.setReturn_tran]
        exact change_eq_some_iff.mpr ⟨tr, found, (if_neg same).symm⟩
  | replyQueued _ _ _ _ _ _ deletable => exact deleted deletable.live rfl (if_pos rfl)
  | replyWaiting _ _ _ _ deletable => exact deleted deletable.live rfl (if_pos rfl)
  | sweep _ _ _ _ deletable => exact deleted deletable.live rfl (if_pos rfl)
  | purge _ _ _ _ _ _ _ deletable => exact deleted deletable.live rfl (if_pos rfl)
  | _ => exact .inl ⟨tr, found, rfl⟩

theorem service_of_effect (all : Inv ⟨φ, σ⟩) (eff : Effect σ₀ e ⟨φ, σ⟩ ⟨φ', τ⟩) {s : ServiceId}
    {svc : Service} (service : σ.service s = some svc) :
    (∃ svc', τ.service s = some svc') ∨ φ.orphan = some s := by
  have changed : ∀ {key update}, ∃ svc', change σ.service key update s = some svc' :=
    ⟨_, change_eq_some_iff.mpr ⟨svc, service, rfl⟩⟩
  cases eff with
  | enqueue | park => exact .inl changed
  | found =>
      refine .inl ⟨svc, put_eq_some_iff.mpr (.inr ⟨?_, service⟩)⟩
      rintro rfl
      cases all.waits.fresh_service.symm.trans service
  | @dropService _ _ s' orphan =>
      by_cases same : s = s'
      · exact .inr (same ▸ orphan)
      · exact .inl ⟨svc, put_none_eq_some_iff.mpr ⟨same, service⟩⟩
  | _ => exact .inl ⟨svc, service⟩

/-- A transaction keeps its service, and its data unless that is new; the service of a new one is
there. -/
theorem source_of_effect (eff : Effect σ₀ e ⟨φ, σ⟩ ⟨φ', τ⟩) {t : TranId} {tr : Transaction}
    (found : τ.tran t = some tr) :
    (∃ tr', σ.tran t = some tr' ∧ tr'.svc = tr.svc ∧ (tr'.data = tr.data ∨ tr.data = σ.next)) ∨
      tr.data = σ.next ∧ ∃ svc, τ.service tr.svc = some svc := by
  have changed : ∀ {key update}, change σ.tran key update t = some tr →
      (∀ x : Transaction, (update x).svc = x.svc ∧ ((update x).data = x.data ∨
        (update x).data = σ.next)) →
      ∃ tr', σ.tran t = some tr' ∧ tr'.svc = tr.svc ∧ (tr'.data = tr.data ∨ tr.data = σ.next) := by
    intro key update found same
    obtain ⟨tr', found', rfl⟩ := change_eq_some_iff.mp found
    refine ⟨tr', found', ?_⟩
    split
    · exact ⟨(same tr').1.symm, (same tr').2.imp_left Eq.symm⟩
    · exact ⟨rfl, .inl rfl⟩
  cases eff with
  | submit _ _ _ _ service _ data =>
      rcases put_eq_some_iff.mp found with ⟨_, made⟩ | ⟨_, found'⟩
      · obtain rfl := Option.some.inj made
        exact .inr ⟨data, _, service⟩
      · exact .inl ⟨tr, found', rfl, .inl rfl⟩
  | assignUp | assignWork | finish | fail => exact .inl (changed found fun _ => ⟨rfl, .inl rfl⟩)
  | setReturn =>
      rw [State.setReturn_tran] at found
      exact .inl (changed found fun _ => ⟨rfl, .inr rfl⟩)
  | replyQueued | replyWaiting | sweep | purge =>
      exact .inl ⟨tr, (put_none_eq_some_iff.mp found).2, rfl, .inl rfl⟩
  | _ => exact .inl ⟨tr, found, rfl, .inl rfl⟩

/-- Whoever sends the data of a result sends it for the transaction it waits for, unless the data is
gone. -/
structure Lent (φ : Phase) (σ : State) : Prop where
  returns : ∀ c x b, σ.client c = some x → x.handler = some .part2 → x.input = some b →
    φ.closing ≠ some c → σ.buf b = none ∨ ∃ t tr, σ.tran t = some tr ∧ tr.data = b ∧
    x.wait4 = some (.tran t)
  stopped : ∀ c x, σ.client c = some x → φ.run = some c → x.handler ≠ some .part2

theorem Lent.effect (lent : Lent φ σ) (all : Inv ⟨φ, σ⟩) (eff : Effect σ₀ e ⟨φ, σ⟩ ⟨φ', τ⟩) :
    Lent φ' τ := by
  have earlier : ∀ {c x y b}, σ.client c = some x → τ.client c = some y → x.handler = some .part2 →
      x.input = some b → φ.closing ≠ some c →
      (∀ t, x.wait4 = some (.tran t) → τ.tran t ≠ none → y.wait4 = some (.tran t)) →
      τ.buf b = none ∨ ∃ t tr, τ.tran t = some tr ∧ tr.data = b ∧ y.wait4 = some (.tran t) := by
    intro c x y b live live' reading into stays wait
    rcases lent.returns c x b live reading into stays with freed | ⟨t, tr, found, rfl, serves⟩
    · exact .inl (freed_of_effect eff freed (all.buffers.old c x b live into))
    · rcases data_of_effect all eff found with ⟨tr', found', same⟩ | freed
      · exact .inr ⟨t, tr', found', same, wait t serves (by simp [found'])⟩
      · exact .inl freed
  constructor
  · intro c y b live reading into stays
    have stays' := closing_of_effect eff live stays
    cases Outcome.of_effect all eff live with
    | kept live' intake wait =>
        simp only [Client.intake, Prod.mk.injEq] at intake
        have reading' := intake.1.symm.trans reading
        refine earlier live' live reading' (intake.2.1.symm.trans into) stays' ?_
        exact wait (by simp [reading']) (fun running => lent.stopped c _ live' running reading')
          stays'
    | armed _ fixed => exact absurd reading fixed
    | input live' _ _ partly =>
        rcases partly with ⟨handler, input, wait⟩ | idle
        · exact earlier live' live (handler.symm.trans reading) (input.symm.trans into) stays' wait
        · cases idle.symm.trans reading
    | returning _ _ _ _ serves found into' =>
        exact .inr ⟨_, _, found, Option.some.inj (into'.symm.trans into), serves⟩
  · intro c y live running reading
    rcases run_of_effect eff running live with running' | idle
    · cases Outcome.of_effect all eff live with
      | kept live' intake =>
          simp only [Client.intake, Prod.mk.injEq] at intake
          exact lent.stopped c _ live' running' (intake.1.symm.trans reading)
      | armed _ fixed => exact fixed reading
      | input _ _ quiet => simp [quiet] at running'
      | returning _ _ _ stopped => cases stopped.symm.trans running
    · cases idle.symm.trans reading

theorem Lent.trace {κ : Conf} (lent : Lent {} σ₀) (start : Inv ⟨{}, σ₀⟩)
    (trace : Trace σ₀ e ⟨{}, σ₀⟩ κ) :
    Lent κ.phase κ.state := by
  induction trace with
  | refl => exact lent
  | tail sofar eff ih => exact ih.effect (start.trace sofar) eff

theorem lent_of_reachable {allowed : State → Event → Prop} (reach : Reachable allowed σ) :
    Lent {} σ := by
  refine Reachable.induction (motive := fun κ => Lent κ.phase κ.state) ?_ ?_ reach
  · constructor <;> simp [State.start]
  · intro _ _ _ _ _ _ _ _ all lent eff
    exact lent.effect all eff

/-! ## What the handlers count on -/

/-- What the handlers count on in every memory that event `e` leads to. -/
structure Steady (σ₀ : State) (e : Event) : Prop where
  removable : ∀ {φ σ}, Trace σ₀ e ⟨{}, σ₀⟩ ⟨φ, σ⟩ → Removable φ σ
  /-- Waiting workers are not being read from. -/
  workers : ∀ {φ σ a v x}, Trace σ₀ e ⟨{}, σ₀⟩ ⟨φ, σ⟩ → φ.run ≠ none → σ.advert a = some v →
    ¬σ.links.Alone (.adv a) → σ.client v.client = some x → x.Idle
  /-- Neither is whoever waits for any reply when a transaction is finished. -/
  waiters : ∀ {φ σ t k x}, Trace σ₀ e ⟨{}, σ₀⟩ ⟨φ, σ⟩ → φ.fin = some t → σ.client k = some x →
    x.wait4 = some .any → x.Idle

theorem InOrder.steady (inOrder : InOrder ⟨{}, σ⟩) (orderly : Orderly σ e) : Steady σ e where
  removable trace := (inOrder.trace orderly trace).removable
  workers trace _ advert linked worker :=
    ((inOrder.trace orderly trace).sound.parking.resting _ _ (.inl ⟨_, _, advert, rfl, linked⟩)
      worker).idle
  waiters trace fin live waits :=
    (inOrder.trace orderly trace).sound.idle_of_finished fin live (.inl waits)

namespace Steady

section

variable (steady : Steady σ₀ e) {b : BufId} {x : Client}

include steady

theorem sendToServer_total {a : AdvertId} {v : Advert} {t : TranId} {tr : Transaction}
    {svc : Service} (trace : Trace σ₀ e ⟨{}, σ₀⟩ ⟨φ, σ⟩) (advert : σ.advert a = some v)
    (live : σ.client v.client = some x) (idle : x.Idle) (found : σ.tran t = some tr)
    (service : σ.service tr.svc = some svc) :
    ∃ τ, sendToServer e.env a t σ = .ok (⟨⟩, τ) := by
  have now := steady.removable trace
  have dismissable : σ.Dismissable (e.env.walk x.adverts) := by
    refine now.rings.dismissable fun p member => ?_
    obtain ⟨_, w, advert', _⟩ := now.all.registry.tree v.client x p live
      ((e.env.walk_perm x.adverts).mem_iff.mp member)
    exact ⟨w, advert'⟩
  obtain ⟨contents, room⟩ := now.all.buffers.data t tr found
  exact ⟨_, sendToServer_ok_iff.mpr ⟨v, x, tr, svc, contents, advert, live, idle, dismissable,
    found, service, room, rfl⟩⟩

/-! ## `svracall.c` -/

theorem sendToWorker_total {t : TranId} {tr : Transaction} {svc : Service}
    (trace : Trace σ₀ e ⟨{}, σ₀⟩ ⟨{ run := some c, up := some t }, σ⟩) (live : σ.client c = some x)
    (idle : x.Idle) (last : x.requests.getLast? = some t) (found : σ.tran t = some tr)
    (service : σ.service tr.svc = some svc) : ∃ τ, sendToWorker e.env c b σ = .ok (⟨⟩, τ) := by
  let μ := σ.nextCommand c
  have resumes : Trace σ₀ e ⟨{}, σ₀⟩ ⟨{ run := some c, up := some t }, μ⟩ :=
    trace.tail (.next rfl live idle)
  have now := steady.removable resumes
  have armed : μ.client c =
      some { x with handler := some .command, input := some σ.next, used := 0 } :=
    change_eq_some_iff.mpr ⟨x, live, (if_pos rfl).symm⟩
  have found' : μ.tran t = some tr := found
  have service' : μ.service tr.svc = some svc := service
  unfold sendToWorker
  rw [seq_of_ok (svrNextCommand_ok_iff.mpr ⟨⟨x, live, idle⟩, rfl⟩),
    bind_of_ok (readClient_ok_iff.mpr ⟨armed, rfl⟩)]
  simp only [last]
  rw [bind_of_ok (readTran_ok_iff.mpr ⟨found', rfl⟩),
    bind_of_ok (readService_ok_iff.mpr ⟨service', rfl⟩),
    bind_of_ok (qisempty_ok_iff.mpr ⟨⟨svc, service'⟩, rfl, rfl⟩)]
  split
  · rename_i waiting
    simp only [Bool.and_eq_true, Bool.not_eq_eq_eq_not, Bool.not_true,
      decide_eq_false_iff_not] at waiting
    obtain ⟨a, v, first, advert, _, linked⟩ := now.rings.first_advert service' waiting.2 waiting.1
    obtain ⟨w, worker, _⟩ := now.all.registry.offered a v advert (by simp)
    have resting := steady.workers resumes (by simp) advert linked worker
    obtain ⟨τ, sends⟩ := steady.sendToServer_total resumes advert worker resting found' service'
    refine ⟨τ, ?_⟩
    rw [bind_of_ok (qfirst_ok_iff.mpr ⟨⟨svc, service'⟩, rfl, rfl⟩),
      bind_of_ok (nodeAdvert_ok_iff.mpr ⟨first, rfl⟩)]
    exact sends
  · obtain ⟨head, self, last, second⟩ := now.rings.linkable service' (n := .tran t)
      (Option.isSome_of_eq_some found')
    refine ⟨μ.enqueue tr.svc t, ?_⟩
    rw [seq_of_ok (modifyService_ok_iff.mpr ⟨⟨svc, service'⟩, rfl⟩)]
    refine qappend_ok_iff.mpr ⟨?_, rfl⟩
    simp only [State.Linkable, WaitQueues.nodeLive_mapService]
    exact ⟨head, self, last, second⟩

theorem svracall_total {header : Bytes}
    (trace : Trace σ₀ e ⟨{}, σ₀⟩ ⟨{ run := some c, held := some b }, σ⟩)
    (live : σ.client c = some x) (idle : x.Idle) (room : σ.buf b = some header)
    (asked : ∃ filled, Received σ₀ e c .svracall filled) :
    ∃ τ, svracall e.env c b σ = .ok (⟨⟩, τ) := by
  have now := steady.removable trace
  have fresh : b < σ.next := now.all.fresh.buf b header room
  unfold svracall
  rw [bind_of_ok (readBuf_ok_iff.mpr ⟨room, rfl⟩), bind_of_ok (get_ok_iff.mpr ⟨rfl, rfl⟩)]
  let flags := tolong (header.drop (XATMI_SERVICE_NAME_LENGTH + IOLONG))
  let len := (tolong (header.drop XATMI_SERVICE_NAME_LENGTH)).toInt
  have refuses : (σ.fndService (header.take XATMI_SERVICE_NAME_LENGTH) = none ∨ len < 0) →
      newTransaction e.env c flags (σ.fndService (header.take XATMI_SERVICE_NAME_LENGTH)) len σ =
        .ok (none, σ) := fun reason => newTransaction_ok_iff.mpr (.inl ⟨reason, rfl, rfl⟩)
  by_cases refused : σ.fndService (header.take XATMI_SERVICE_NAME_LENGTH) = none ∨ len < 0
  · have live' : (σ.freeBuf b).client c = some x := live
    rw [bind_of_ok (refuses refused), seq_of_ok (tpfree_ok_iff.mpr ⟨⟨header, room⟩, rfl⟩)]
    refine ⟨((σ.freeBuf b).write c ((-1) :: shortBytes (BitVec.ofNat 16 TPENOENT))).nextCommand c,
      ?_⟩
    simp only [bind_ok_iff, svrwriteb_ok_iff, svrwrites_ok_iff, svrNextCommand_ok_iff, and_assoc,
      exists_and_left, exists_eq_left, exists_const, State.write_write, State.write_client]
    exact ⟨⟨x, live'⟩, ⟨x, live'⟩, ⟨x, live', idle⟩, rfl⟩
  · simp only [not_or, Int.not_lt] at refused
    obtain ⟨s, service⟩ := Option.ne_none_iff_exists'.mp refused.1
    obtain ⟨svc, current, _⟩ := now.all.registry.fndService_eq_some_iff.mp service
    let tr := request e.env c s flags σ.next
    let μ := σ.submit tr len.toNat
    have made : newTransaction e.env c flags (σ.fndService (header.take XATMI_SERVICE_NAME_LENGTH))
        len σ = .ok (some (σ.next + 1), (σ.allocBuf (List.replicate len.toNat 0)).addTran tr) :=
      newTransaction_ok_iff.mpr (.inr ⟨s, service, refused.2, rfl, rfl⟩)
    have kept : ((σ.allocBuf (List.replicate len.toNat 0)).addTran tr).buf b = some header :=
      (if_neg fresh.ne).trans room
    have live' : μ.client c = some { x with requests := x.requests ++ [σ.next + 1] } :=
      change_eq_some_iff.mpr ⟨x, live, (if_pos rfl).symm⟩
    have found : μ.tran (σ.next + 1) = some tr := if_pos rfl
    have data : (μ.freeBuf b).buf σ.next = some (List.replicate len.toNat 0) :=
      (if_neg fresh.ne').trans (if_pos rfl)
    rw [bind_of_ok made, seq_of_ok (tpfree_ok_iff.mpr ⟨⟨header, kept⟩, rfl⟩)]
    let ρ := (μ.freeBuf b).write c (0 :: shortBytes tr.cd)
    suffices waits : ∃ τ, svriowait c tr.data .sendToWorker (sendToWorker e.env) ρ = .ok (⟨⟩, τ) by
      obtain ⟨τ, waits⟩ := waits
      refine ⟨τ, ?_⟩
      simp only [bind_ok_iff, modifyClient_ok_iff, readTran_ok_iff, svrwriteb_ok_iff,
        svrwrites_ok_iff, and_assoc, exists_and_left, exists_eq_left, exists_const,
        State.write_write, State.write_client]
      exact ⟨⟨x, live⟩, tr, found, ⟨_, live'⟩, ⟨_, live'⟩, waits⟩
    cases length : len.toNat with
    | succ n =>
        refine ⟨_, svriowait_ok_iff.mpr ⟨_, _, live', idle, data, .inl ⟨?_, rfl⟩⟩⟩
        rw [length]
        simp
    | zero =>
        have nothing : ρ.buf tr.data = some [] := by
          rw [length] at data
          exact data
        have waiting : ρ.client c = some { x with requests := x.requests ++ [σ.next + 1] } := live'
        rw [svriowait_of_empty waiting idle nothing]
        have submits : Effect σ₀ e ⟨{ run := some c, held := some b }, σ⟩
            ⟨{ run := some c, held := some b, up := some (σ.next + 1) }, μ⟩ :=
          .submit rfl rfl live idle current rfl rfl rfl rfl rfl asked (by rw [length]; decide)
        have kept' : μ.buf b = some header := kept
        have uploaded : Trace σ₀ e ⟨{}, σ₀⟩
            ⟨{ run := some c, up := some (σ.next + 1) }, ρ.observe (.handled c .sendToWorker [])⟩ :=
          (((trace.tail submits).tail (.release rfl kept')).tail (.write live' rfl)).tail
            (.call rfl (.inr (.inl rfl)))
        exact steady.sendToWorker_total uploaded live' idle (by simp) found current

/-! ## `svrgetrply.c` -/

theorem svrgetrply_total {request : Bytes}
    (trace : Trace σ₀ e ⟨{}, σ₀⟩ ⟨{ run := some c, held := some b }, σ⟩)
    (live : σ.client c = some x) (idle : x.Idle) (room : σ.buf b = some request) :
    ∃ τ, svrgetrply c b σ = .ok (⟨⟩, τ) := by
  have freed := steady.removable (trace.tail (.release rfl room))
  have live' : (σ.freeBuf b).client c = some x := live
  cases reply : (if tolong (request.drop IOSHORT) &&& TPGETANY = 0
      then σ.findCd x.replies (toshort request) else x.replies.head?) with
  | some t =>
      obtain ⟨member, _⟩ := search_elim reply
      obtain ⟨tr, found, owner⟩ := freed.all.own.mine c x t live' (List.mem_append_right _ member)
      obtain ⟨data, stored⟩ := freed.all.buffers.data t tr found
      exact ⟨_, svrgetrply_sends room live reply (freed.deletable found) stored (owner ▸ live) idle⟩
  | none =>
      have search : ∀ queue cd, (σ.freeBuf b).findCd queue cd = σ.findCd queue cd := fun _ _ => rfl
      have error : ∀ errno, ∃ τ, senderrno c errno (σ.freeBuf b) = .ok (⟨⟩, τ) :=
        fun errno => ⟨_, senderrno_ok_iff.mpr ⟨⟨x, live', idle⟩, rfl⟩⟩
      unfold svrgetrply
      rw [bind_of_ok (readBuf_ok_iff.mpr ⟨room, rfl⟩)]
      simp only [seq_of_ok (tpfree_ok_iff.mpr ⟨⟨request, room⟩, rfl⟩)]
      rw [bind_of_ok (readClient_ok_iff.mpr ⟨live', rfl⟩), bind_of_ok (get_ok_iff.mpr ⟨rfl, rfl⟩)]
      simp only [search, reply]
      cases (if tolong (request.drop IOSHORT) &&& TPGETANY = 0
          then (σ.findCd x.requests (toshort request)).map Wait.tran else some .any) with
      | none => exact error TPEBADDESC
      | some w =>
          simp only []
          split
          · exact error TPEBLOCK
          · exact ⟨_, modifyClient_ok_iff.mpr ⟨⟨x, live'⟩, rfl⟩⟩

/-! ## `svrreturn.c` -/

theorem part2_total {t : TranId} {tr : Transaction} {data : Bytes} {μ : State}
    (finishing : Finishing σ₀ e c t tr data μ) : ∃ τ, part2 c b μ = .ok (⟨⟩, τ) := by
  obtain ⟨x, live, idle, serves⟩ := finishing.worker
  have start : Inv ⟨{}, σ₀⟩ := (steady.removable .refl).all
  have ended := steady.removable finishing.ends
  obtain ⟨y, owner, _⟩ := ended.all.own.owned t _ finishing.current
  have owner : ((μ.nextCommand c).finish c t id).client tr.client = some y := owner
  rw [part2_run live idle serves finishing.found owner]
  split
  · rename_i waiting
    simp only [Bool.or_eq_true, decide_eq_true_eq] at waiting
    have resting : y.Idle := by
      rcases waiting with any | own
      · exact steady.waiters finishing.ends rfl owner any
      · exact ended.finished t tr.client y rfl owner own
    exact ⟨_, finishing.sends start owner resting⟩
  · exact ⟨_, queueReply_ok_iff.mpr ⟨_, y, finishing.current, owner, rfl⟩⟩

theorem svrreturn_total {header : Bytes} {t : TranId} (received : Received σ₀ e c .svrreturn header)
    (live : σ₀.client c = some x) (serves : x.wait4 = some (.tran t))
    (fits : 0 ≤ returnLength header) :
    ∃ τ, step σ₀ e = .ok τ := by
  have start := steady.removable .refl
  obtain ⟨tr, found⟩ := start.serving c x t live serves
  rcases Int.le_iff_lt_or_eq.mp fits with long | empty
  · obtain ⟨_, _, done, _⟩ := step_header start.all received live serves found long
    exact ⟨_, done⟩
  · obtain ⟨b, μ, finishing, called⟩ :=
      finishing_of_svrreturn start.all received live serves found empty.symm
    obtain ⟨τ, done⟩ := steady.part2_total (b := b) finishing
    exact ⟨τ, by rw [called, done]; rfl⟩

/-! ## `svradvertise.c` -/

theorem svradvertise_total {header : Bytes}
    (trace : Trace σ₀ e ⟨{}, σ₀⟩ ⟨{ run := some c, held := some b }, σ⟩)
    (live : σ.client c = some x) (idle : x.Idle) (room : σ.buf b = some header) :
    ∃ τ, svradvertise c b σ = .ok (⟨⟩, τ) := by
  have inv := (steady.removable trace).all
  obtain ⟨s, μ, founded, same⟩ : ∃ s μ, newService (header.take XATMI_SERVICE_NAME_LENGTH) σ = .ok
      (s, μ) ∧ μ.client = σ.client ∧ μ.buf = σ.buf := by
    cases found : σ.fndService (header.take XATMI_SERVICE_NAME_LENGTH) with
    | some s => exact ⟨s, σ, newService_ok_iff.mpr (.inl ⟨found, rfl⟩), rfl, rfl⟩
    | none => exact ⟨_, _, newService_ok_iff.mpr (.inr ⟨found, rfl, rfl⟩), rfl, rfl⟩
  have live' : μ.client c = some x := by rw [same.1]; exact live
  obtain ⟨a, ρ, made, ⟨y, live'', idle'⟩, bufs⟩ : ∃ a ρ,
      newAdvertisement c (header.take XATMI_SERVICE_NAME_LENGTH)
        (tolong (header.drop XATMI_SERVICE_NAME_LENGTH)) σ = .ok (a, ρ) ∧
      (∃ y, ρ.client c = some y ∧ y.Idle) ∧ ρ.buf = σ.buf := by
    cases found : μ.fndAdvertisement c (header.take XATMI_SERVICE_NAME_LENGTH) with
    | some a => exact ⟨a, μ, newAdvertisement_ok_iff.mpr ⟨s, μ, founded, .inl ⟨found, rfl⟩⟩,
      ⟨x, live', idle⟩, same.2⟩
    | none =>
        exact ⟨_, _, newAdvertisement_ok_iff.mpr ⟨s, μ, founded,
          .inr ⟨found, ⟨x, live'⟩, rfl, rfl⟩⟩,
          ⟨_, change_eq_some_iff.mpr ⟨x, live', (if_pos rfl).symm⟩, idle⟩, same.2⟩
  obtain ⟨_, v, _, advert, _⟩ := newAdvertisement_spec inv made
  have held : ρ.buf b = some header := by rw [bufs]; exact room
  have advert' : (ρ.freeBuf b).advert a = some v := advert
  have ready : ∃ y, (ρ.freeBuf b).client c = some y ∧ y.Idle := ⟨y, live'', idle'⟩
  unfold svradvertise
  rw [bind_of_ok (readBuf_ok_iff.mpr ⟨room, rfl⟩)]
  simp only [bind_of_ok made]
  rw [seq_of_ok (tpfree_ok_iff.mpr ⟨⟨header, held⟩, rfl⟩),
    bind_of_ok (readAdvert_ok_iff.mpr ⟨advert', rfl⟩)]
  split <;> exact ⟨_, answer_ok_iff.mpr ⟨ready, rfl⟩⟩

/-! ## `svrservice.c` -/

theorem forM_addToWaitq_total {adverts : List AdvertId}
    (trace : Trace σ₀ e ⟨{}, σ₀⟩ ⟨{ parked := some c }, σ⟩) (live : σ.client c = some x)
    (mine : ∀ a ∈ adverts, a ∈ x.adverts) (nodup : adverts.Nodup) (idle : ∀ a ∈ adverts, ¬σ.Waits a)
    (asked : Commands σ₀ e c TPTWORK) (same : SameTables σ₀ σ) :
    ∃ τ, adverts.forM addToWaitq σ = .ok (⟨⟩, τ) ∧ τ.client = σ.client := by
  induction adverts using List.reverseRecOn with
  | nil => exact ⟨σ, rfl, rfl⟩
  | append_singleton adverts a ih =>
      have earlier : ∀ {b}, b ∈ adverts → b ∈ adverts ++ [a] :=
        fun member => List.mem_append_left _ member
      obtain ⟨τ, done, clients⟩ := ih (fun b member => mine b (earlier member))
        (List.nodup_append.mp nodup).1 fun b member => idle b (earlier member)
      have inv := (steady.removable trace).all
      have parks : Trace σ₀ e ⟨{ parked := some c }, σ⟩ ⟨{ parked := some c }, τ⟩ :=
        forM_addToWaitq_trace inv live (fun b member => mine b (earlier member))
          (List.nodup_append.mp nodup).1 (fun b member => idle b (earlier member)) asked
          (fun _ _ v advert => by rw [← same.advert, ← same.links]; exact ⟨advert, rfl, rfl⟩) done
      have now := steady.removable (trace.trans parks)
      have live' : τ.client c = some x := by rw [clients]; exact live
      obtain ⟨_, v, advert, _, svc, service⟩ := now.all.registry.tree c x a live' (mine a (by simp))
      have linkable := now.rings.linkable service (n := .adv a) (Option.isSome_of_eq_some advert)
      refine ⟨τ.park v.svc a, ?_, clients⟩
      have visited : addToWaitq a τ = .ok (⟨⟩, τ.park v.svc a) :=
        addToWaitq_ok_iff.mpr ⟨v, advert, linkable, rfl⟩
      change forM (adverts ++ [a]) addToWaitq σ = _
      rw [List.forM_append]
      exact (seq_of_ok done).trans (seq_of_ok visited)

theorem work_total (asks : Commands σ₀ e c TPTWORK) : ∃ τ, step σ₀ e = .ok τ := by
  have start := steady.removable .refl
  have inv : Inv ⟨{}, σ₀⟩ := start.all
  have rings : Rings {} σ₀ := start.rings
  by_cases work : ∃ x a, σ₀.client c = some x ∧ a ∈ x.adverts ∧ σ₀.Waits a
  · obtain ⟨τ, _, _, _, done, _⟩ := work_answered_of_rings inv rings asks work
    exact ⟨τ, done⟩
  · obtain ⟨filled, received, kind⟩ := asks
    obtain ⟨x, b, contents, live, into, reading, room, length, nonempty, _⟩ :=
      step_of_received received
    obtain ⟨_, _, live', into', _, called⟩ := step_of_workByte received kind
    obtain rfl := Option.some.inj (live.symm.trans live')
    obtain rfl := Option.some.inj (into.symm.trans into')
    let y : Client := { x with handler := none, input := none, used := 0 }
    let μ := σ₀.atWork c b filled
    have begun : μ.client c = some y := change_eq_some_iff.mpr ⟨x, live, (if_pos rfl).symm⟩
    have held : (σ₀.begin c .command b filled).buf b = some filled := if_pos rfl
    have empty : μ.buf σ₀.next = some [] := if_pos rfl
    have same : SameTables σ₀ (μ.freeBuf σ₀.next) := (sameTables_atWork c b filled).freeBuf _
    have parked : Trace σ₀ e ⟨{}, σ₀⟩ ⟨{ parked := some c }, μ.freeBuf σ₀.next⟩ := by
      have moves : Effect σ₀ e ⟨.called c x .command b, σ₀.begin c .command b filled⟩
          ⟨{ run := some c, held := some σ₀.next },
          ((σ₀.begin c .command b filled).freeBuf b).allocBuf []⟩ :=
        .resize rfl held
      refine .head (.begin received live into reading room length nonempty) (.head moves ?_)
      refine .head (.call rfl (.inl rfl)) (.head (.release rfl empty) (.single ?_))
      exact .rest rfl ⟨filled, received, kind⟩ begun ⟨rfl, rfl, rfl⟩ rfl
    have perm := e.env.walk_perm x.adverts
    have nothing : ∀ a ∈ e.env.walk x.adverts, ¬σ₀.Waits a :=
      fun a member waits => work ⟨x, a, live, perm.mem_iff.mp member, waits⟩
    obtain ⟨τ, parks, _⟩ := steady.forM_addToWaitq_total (x := y) parked begun
      (fun a member => perm.mem_iff.mp member)
      (perm.nodup_iff.mpr (inv.registry.tree_nodup c x live)) nothing ⟨filled, received, kind⟩ same
    have chooses : σ₀.Chooses none (e.env.walk x.adverts) none := by
      obtain ⟨choice, chooses⟩ : ∃ choice, σ₀.Chooses none (e.env.walk x.adverts) choice := by
        refine State.Chooses.total (fun p member => ?_) (by simp) fun a waits => ?_
        · obtain ⟨_, v, advert, _, svc, service⟩ :=
            inv.registry.tree c x p live (perm.mem_iff.mp member)
          exact ⟨v, svc, advert, service⟩
        · obtain ⟨_, t, tr, _, first, found, _⟩ := rings.ready waits
          exact ⟨t, tr, first, found⟩
      cases choice with
      | none => exact chooses
      | some a =>
          obtain impossible | ⟨member, waits⟩ := chooses.waits rfl
          · cases impossible
          · exact absurd waits (nothing a member)
    have runs : svrservice e.env c σ₀.next μ = .ok (⟨⟩, τ) := by
      have begun' : (μ.freeBuf σ₀.next).client c = some y := begun
      unfold svrservice
      rw [seq_of_ok (tpfree_ok_iff.mpr ⟨⟨[], empty⟩, rfl⟩),
        bind_of_ok (readClient_ok_iff.mpr ⟨begun', rfl⟩),
        bind_of_ok (foldlM_findEarliest_ok_iff.mpr ⟨same.chooses_iff.mpr chooses, rfl⟩)]
      exact parks
    exact ⟨τ, by rw [called, runs]; rfl⟩

/-! ## `tpserver.c` -/

theorem command_total {filled : Bytes} {handler : Handler} {len : Nat}
    (received : Received σ₀ e c .command filled)
    (known : commands[(filled.getD 0 0).toNat]? = some (handler, len)) :
    ∃ τ, step σ₀ e = .ok τ := by
  cases len with
  | zero => exact steady.work_total ⟨filled, received, (commands_empty known).2⟩
  | succ len =>
      obtain ⟨x, b, contents, live, into, reading, room, length, nonempty, called⟩ :=
        step_of_received received
      let μ := σ₀.begin c .command b filled
      have held : μ.buf b = some filled := if_pos rfl
      have begun : ((μ.freeBuf b).allocBuf (resize filled (len + 1))).client c =
          some { x with handler := none, input := none, used := 0 } :=
        change_eq_some_iff.mpr ⟨x, live, (if_pos rfl).symm⟩
      have moved : tprealloc b ((len + 1 : Nat) : Int) μ =
          .ok (some μ.next, (μ.freeBuf b).allocBuf (resize filled (len + 1))) :=
        tprealloc_ok_iff.mpr ⟨filled, held, .inr ⟨by omega, rfl, rfl⟩⟩
      have long : resize filled (len + 1) ≠ [] := by
        intro empty
        have length := length_resize filled (len + 1)
        rw [empty] at length
        cases length
      have runs : command e.env c b μ =
          .ok (⟨⟩, ((μ.freeBuf b).allocBuf (resize filled (len + 1))).arm c handler μ.next) := by
        unfold command
        rw [bind_of_ok (readBuf_ok_iff.mpr ⟨held, rfl⟩)]
        simp only [known]
        rw [bind_of_ok moved]
        exact svriowait_ok_iff.mpr ⟨_, _, begun, ⟨rfl, rfl, rfl⟩, if_pos rfl, .inl ⟨long, rfl⟩⟩
      exact ⟨_, called.trans (congrArg (Except.map Prod.snd) runs)⟩

theorem closes_total (closes : Closes σ₀ e c)
    (room : ∀ x b, σ₀.client c = some x → x.input = some b → ∃ contents, σ₀.buf b = some contents) :
    ∃ τ, step σ₀ e = .ok τ := by
  obtain ⟨φ, μ, _, quiet, trace, same, called⟩ := step_closes closes room
  obtain ⟨x, live⟩ := ((steady.removable .refl).all.registry.mem_clients c).mp closes.connected
  obtain ⟨y, live', _⟩ := exists_of_map_eq (same.client c).symm live
  obtain ⟨τ, _, done, _⟩ := delClient_total steady.removable e.env closes quiet trace same live'
  exact ⟨τ, by rw [called, done]; rfl⟩

end

end Steady

/-! ## Ways to die -/

/-- The event kills the switchboard. -/
inductive Fatal (σ : State) (e : Event) : Prop
  /-- A result comes from a client whose `wait4` refers to no transaction: it has not been given
  one, or the transaction has been deleted, or a reply that it has collected meanwhile has cleared
  `wait4`. -/
  | unexpected {c : ClientId} {x : Client} {header : Bytes}
      (received : Received σ e c .svrreturn header) (live : σ.client c = some x)
      (idle : ∀ t, x.wait4 ≠ some (.tran t))
  /-- A result has a negative length. -/
  | negative {c : ClientId} {header : Bytes} (received : Received σ e c .svrreturn header)
      (refused : returnLength header < 0)
  /-- There is input, or the end of it, for a buffer that has been freed. -/
  | freed {c : ClientId} {input : Option Bytes} {x : Client} {b : BufId}
      (source : e.happening = .ready c input) (live : σ.client c = some x) (into : x.input = some b)
      (gone : σ.buf b = none)
  /-- A request is complete, but its service has been freed. -/
  | withdrawn {c : ClientId} {x : Client} {filled : Bytes} {t : TranId} {tr : Transaction}
      (received : Received σ e c .sendToWorker filled) (live : σ.client c = some x)
      (last : x.requests.getLast? = some t) (found : σ.tran t = some tr)
      (gone : σ.service tr.svc = none)

/-- What is fatal kills. -/
theorem Fatal.dies (inv : Inv ⟨{}, σ⟩) (fatal : Fatal σ e) : step σ e ≠ .ok τ := by
  intro done
  cases fatal with
  | @unexpected c x header received live idle =>
      obtain ⟨_, b, u, _, _, _, returns⟩ := runHandler_of_step received done
      obtain ⟨_, y, t, _, _, _, _, _, live', _, serves, _⟩ := svrreturn_ok returns
      obtain ⟨z, live'', rfl⟩ := change_eq_some_iff.mp live'
      obtain rfl := Option.some.inj (live.symm.trans live'')
      rw [if_pos rfl] at serves
      exact idle t serves
  | @negative c header received refused =>
      obtain ⟨_, b, u, _, _, _, returns⟩ := runHandler_of_step received done
      obtain ⟨contents, _, _, _, _, len, _, held, _, _, _, _, _, length, _⟩ := svrreturn_ok returns
      obtain rfl : header = contents := Option.some.inj ((if_pos rfl).symm.trans held)
      rw [returnLength, length] at refused
      omega
  | @freed c input x b source live into gone =>
      obtain ⟨handler, reading⟩ : ∃ handler, x.handler = some handler := by
        refine Option.ne_none_iff_exists'.mp fun none_ => ?_
        cases ((inv.readers c x live).idle none_).2.1.symm.trans into
      rw [step_stale source ((inv.registry.mem_clients c).mpr ⟨x, live⟩) live into reading
        gone] at done
      cases done
  | @withdrawn c x filled t tr received live last found gone =>
      obtain ⟨y, b, u, live', _, _, sends⟩ := runHandler_of_step received done
      obtain rfl := Option.some.inj (live.symm.trans live')
      have begun : (σ.begin c .sendToWorker b filled).client c =
          some { x with handler := none, input := none, used := 0 } :=
        change_eq_some_iff.mpr ⟨x, live, (if_pos rfl).symm⟩
      obtain ⟨_, tr', svc, found', service, _⟩ := sendToWorker_ok (b := b) begun last sends
      obtain rfl := Option.some.inj (found.symm.trans found')
      cases gone.symm.trans service

theorem Steady.received_total (steady : Steady σ e) (lent : Lent {} σ) (spared : ¬Fatal σ e)
    {handler : Handler} {filled : Bytes} (received : Received σ e c handler filled) :
    ∃ τ, step σ e = .ok τ := by
  have start : Inv ⟨{}, σ⟩ := (steady.removable .refl).all
  obtain ⟨x, b, contents, live, into, reading, room, length, nonempty, called⟩ :=
    step_of_received received
  have begins : Trace σ e ⟨{}, σ⟩ ⟨.called c x handler b, σ.begin c handler b filled⟩ :=
    .single (.begin received live into reading room length nonempty)
  have begun : (σ.begin c handler b filled).client c =
      some { x with handler := none, input := none, used := 0 } :=
    change_eq_some_iff.mpr ⟨x, live, (if_pos rfl).symm⟩
  have idle : ({ x with handler := none, input := none, used := 0 } : Client).Idle :=
    ⟨rfl, rfl, rfl⟩
  have held : (σ.begin c handler b filled).buf b = some filled := if_pos rfl
  have ends : (∃ τ, runHandler e.env handler c b (σ.begin c handler b filled) = .ok (⟨⟩, τ)) →
      ∃ τ, step σ e = .ok τ := by
    rintro ⟨τ, done⟩
    exact ⟨τ, by rw [called, done]; rfl⟩
  cases handler with
  | command =>
      cases known : commands[(filled.getD 0 0).toNat]? with
      | none =>
          refine steady.closes_total (.inr ⟨filled, received, known⟩) fun y b' live' into' => ?_
          obtain rfl := Option.some.inj (live.symm.trans live')
          obtain rfl := Option.some.inj (into.symm.trans into')
          exact ⟨contents, room⟩
      | some entry => exact steady.command_total received known
  | svracall => exact ends (steady.svracall_total begins begun idle held ⟨filled, received⟩)
  | svrgetrply => exact ends (steady.svrgetrply_total begins begun idle held)
  | svradvertise => exact ends (steady.svradvertise_total begins begun idle held)
  | svrunadvertise =>
      obtain ⟨_, _, τ, _, _, done, _⟩ := svrunadvertise_total steady.removable received
      exact ⟨τ, done⟩
  | svrservice => exact absurd reading (start.readers c x live).service
  | svrreturn =>
      by_cases assigned : ∃ t, x.wait4 = some (.tran t)
      · obtain ⟨t, serves⟩ := assigned
        refine steady.svrreturn_total received live serves (Int.not_lt.mp fun refused => ?_)
        exact spared (.negative received refused)
      · exact absurd (.unexpected received live (not_exists.mp assigned)) spared
  | sendToWorker =>
      obtain ⟨t, tr, uploading, _⟩ := start.dispatches.upload c x live reading (by simp)
      obtain ⟨svc, service⟩ : ∃ svc, σ.service tr.svc = some svc := by
        refine Option.ne_none_iff_exists'.mp fun gone => ?_
        exact spared (.withdrawn received live uploading.last uploading.found gone)
      simp only [Phase.called, uploading.last] at begins
      exact ends (steady.sendToWorker_total (b := b) begins begun idle uploading.last
        uploading.found service)
  | part2 =>
      rcases lent.returns c x b live reading into (by simp) with gone | ⟨t, tr, found, _, serves⟩
      · cases gone.symm.trans room
      · obtain ⟨data, b', μ, finishing, steps, _⟩ :=
          finishing_of_part2 start received live serves found
        obtain ⟨τ, done⟩ := steady.part2_total (b := b') finishing
        exact ⟨τ, by rw [steps, done]; rfl⟩

/-- An event that is not fatal is survived. -/
theorem Steady.survives (steady : Steady σ e) (lent : Lent {} σ) (spared : ¬Fatal σ e) :
    ∃ τ, step σ e = .ok τ := by
  have start : Inv ⟨{}, σ⟩ := (steady.removable .refl).all
  cases source : e.happening with
  | connect => exact ⟨_, step_connect source⟩
  | ready c input =>
      by_cases connected : c ∈ σ.clients
      · obtain ⟨x, live⟩ := (start.registry.mem_clients c).mp connected
        have room : ∀ b, x.input = some b → ∃ contents, σ.buf b = some contents := by
          refine fun b into => Option.ne_none_iff_exists'.mp fun gone => ?_
          exact spared (.freed source live into gone)
        rcases ready_cases source connected live room with closes | ⟨handler, filled, received⟩ |
          ⟨b, contents, piece, done⟩
        · refine steady.closes_total closes fun y b live' into => ?_
          obtain rfl := Option.some.inj (live.symm.trans live')
          exact room b into
        · exact steady.received_total lent spared received
        · exact ⟨_, done⟩
      · exact ⟨σ, step_absent source connected⟩

/-- As long as no transaction is dispatched twice and no executor is withdrawn, the switchboard
survives an event exactly if it is not fatal: whatever the peers send and whenever they go away,
there are no other ways to die. -/
theorem survives_iff (reach : Reachable Orderly σ) (orderly : Orderly σ e) :
    (∃ τ, step σ e = .ok τ) ↔ ¬Fatal σ e := by
  have inOrder := inOrder_of_reachable reach
  constructor
  · rintro ⟨τ, done⟩ fatal
    exact fatal.dies inOrder.sound.all done
  · exact (inOrder.steady orderly).survives (lent_of_reachable reach)

open Scenario in
/-- Client 2 goes away while worker 0 sends the result of its transaction: the next byte of the
worker is fatal, a new connection is not. -/
theorem survives_iff_returning : ∃ σ, Reachable Orderly σ ∧ Fatal σ (receive 0 [7] 0) ∧
    (¬∃ τ, step σ (receive 0 [7] 0) = .ok τ) ∧ ¬Fatal σ connect := by
  obtain ⟨σ, reach, seen⟩ := reachable_of_permitted
    ([connect, connect] ++ advertise 0 65 ++ work 0 ++ call 2 65 0 9 ++ giveBack 0 2
      3 ++ [hangUp 2])
    (fun σ => decide (Orderly σ (receive 0 [7] 0) ∧ Orderly σ connect ∧
      (σ.client 0).map (fun x => x.input.map fun b => (σ.buf b).isNone) = some (some true))) true
    (show permitted Orderly _ _ = true by decide +kernel) (by decide +kernel)
  obtain ⟨orderly, orderly', gone⟩ := of_decide_eq_true seen
  obtain ⟨x, live, gone⟩ := Option.map_eq_some_iff.mp gone
  obtain ⟨b, into, gone⟩ := Option.map_eq_some_iff.mp gone
  have fatal : Fatal σ (receive 0 [7] 0) := .freed rfl live into (Option.isNone_iff_eq_none.mp gone)
  exact ⟨σ, reach, fatal, fun survived => (survives_iff reach orderly).mp survived fatal,
    (survives_iff reach orderly').mp ⟨_, step_connect rfl⟩⟩

end Switchboard
end Xatmi
