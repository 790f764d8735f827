import Xatmi.Switchboard.Conversation
import Xatmi.Switchboard.Intake
import Xatmi.Switchboard.Origin
import Xatmi.Switchboard.Serving

/-!
# Lost transactions

When the last advertisement of a service goes away, `del_service` deletes the transactions on the
queue of the service without a word to their clients. The transactions of the service that are not
on its queue it leaves alone, and they point to a service that is freed.
-/

namespace Xatmi
namespace Switchboard

open Intrusive Relation

variable {σ₀ : State} {e : Event} {φ φ' : Phase} {σ τ : State} {κ : Conf}

/-! ## Transactions while something is deleted -/

/-- The transactions that are left are where they were. -/
def Remains (σ τ : State) : Prop :=
  ∀ t tr, τ.tran t = some tr → ∃ tr₀, σ.tran t = some tr₀ ∧ tr₀.place = tr.place ∧
    (τ.links.Alone (.tran t) ↔ σ.links.Alone (.tran t))

namespace Remains

theorem trans {ρ : State} (first : Remains σ τ) (second : Remains τ ρ) : Remains σ ρ := by
  intro t tr found
  obtain ⟨tr₁, found₁, place₁, alone₁⟩ := second t tr found
  obtain ⟨tr₀, found₀, place₀, alone₀⟩ := first t tr₁ found₁
  exact ⟨tr₀, found₀, place₀.trans place₁, alone₁.trans alone₀⟩

theorem of_map (tran : ∀ t, (τ.tran t).map Transaction.place = (σ.tran t).map Transaction.place)
    (links : τ.links = σ.links) : Remains σ τ := by
  intro t tr found
  obtain ⟨tr₀, found₀, same⟩ := exists_of_map_eq (tran t) found
  exact ⟨tr₀, found₀, same, by rw [links]⟩

theorem delTran (waits : WaitQueues σ) {t : TranId} {tr : Transaction}
    (found : σ.tran t = some tr) :
    Remains σ (σ.delTran t tr) := by
  intro t' tr' found'
  obtain ⟨different, current⟩ := put_none_eq_some_iff.mp found'
  refine ⟨tr', current, rfl, fun after => ?_, fun alone => waits.alone_unlink_tran found alone⟩
  rcases waits.tran t' tr' current with alone | ⟨waiting, queue, member⟩
  · exact alone
  · have kept : t' ∈ waiting.erase t := (List.mem_erase_of_ne different).mpr member
    exact absurd after (WaitQueues.not_alone_of_queued ⟨_, waits.queue_unlink_tran found queue,
      kept⟩)

theorem reply (waits : WaitQueues σ) {t : TranId} {tr : Transaction} (found : σ.tran t = some tr)
    (contents : Bytes) : Remains σ (σ.reply t tr contents) := by
  have answered : Remains σ (((σ.write tr.client (replyFrame tr contents)).nextCommand
      tr.client).mapClient tr.client fun x => { x with wait4 := none }) := of_map (fun _ => rfl) rfl
  have waits' : WaitQueues (((σ.write tr.client (replyFrame tr contents)).nextCommand
      tr.client).mapClient tr.client fun x => { x with wait4 := none }) :=
    waits.congr rfl rfl rfl (fun _ => rfl) (Nat.le_succ _)
  exact answered.trans (delTran waits' found)

theorem detach (waits : WaitQueues σ) {a : AdvertId} {v : Advert} (advert : σ.advert a = some v)
    (c : ClientId) : Remains σ (σ.detach a c) := by
  intro t tr found
  obtain ⟨before, after⟩ := waits.unlink_adv_tran advert t
  refine ⟨tr, found, rfl, ?_⟩
  show _ ∧ _ ↔ _ ∧ _
  rw [show (σ.detach a c).links = (σ.unlink (.adv a)).links from rfl, before, after]

end Remains

/-- The event is taking something away: a client is rid of what it was executing, or an
advertisement is out of its tree. -/
def Phase.Removing (φ : Phase) : Prop :=
  φ.settled = true ∨ φ.det ≠ none

theorem Phase.Ok.not_removing (phases : φ.Ok) (busy : φ.run ≠ none ∨ φ.up ≠ none ∨ φ.parked ≠ none)
    (noDet : φ.det = none) : ¬φ.Removing := by
  rintro (settled | det)
  · obtain ⟨k, closing⟩ := phases.settled settled
    obtain ⟨run, up, _, parked⟩ := phases.closing k closing
    simp [run, up, parked] at busy
  · exact det noDet

theorem remains_of_trace (start : Inv ⟨{}, σ₀⟩) (trace : Trace σ₀ e ⟨{}, σ₀⟩ κ)
    (removing : κ.phase.Removing) :
    Remains σ₀ κ.state := by
  induction trace with
  | refl => simp [Phase.Removing] at removing
  | @tail κ κ' sofar eff ih =>
      have inv := start.trace sofar
      obtain ⟨φ, σ⟩ := κ
      have phases : φ.Ok := inv.phases
      have waits : WaitQueues σ := inv.waits
      have tables : SameTables σ₀ σ → Remains σ₀ σ := fun same =>
        .of_map (fun _ => by rw [same.tran]) same.links
      cases eff with
      | connect | fill | begin | close | done => simp [Phase.Removing, Phase.called] at removing
      | dropClient _ noDet => simp [Phase.Removing, noDet] at removing
      | call | write | release | resize | armHeader | next | armUpload | block | requeue
      | armReturn | orphan | dropService =>
          exact (ih removing).trans (.of_map (fun _ => rfl) rfl)
      | submit running _ _ _ _ _ _ _ _ noDet =>
          exact absurd removing (phases.not_removing (.inl (by simp [running])) noDet)
      | enqueue up _ _ _ noDet =>
          exact absurd removing (phases.not_removing (.inr (.inl (by simp [up]))) noDet)
      | assignUp up _ _ _ _ _ _ _ _ _ _ noDet =>
          exact absurd removing (phases.not_removing (.inr (.inl (by simp [up]))) noDet)
      | assignWork running _ _ _ _ _ _ _ _ _ _ _ _ _ noDet =>
          exact absurd removing (phases.not_removing (.inl (by simp [running])) noDet)
      | rest running _ _ _ noDet =>
          exact absurd removing (phases.not_removing (.inl (by simp [running])) noDet)
      | park parked =>
          exact absurd removing (phases.not_removing (.inr (.inr (by simp [parked])))
            (phases.parked _ parked).2)
      | found running _ noDet =>
          exact absurd removing (phases.not_removing (.inl (by simp [running])) noDet)
      | offer running noDet =>
          exact absurd removing (phases.not_removing (.inl (by simp [running])) noDet)
      | replyQueued _ _ _ _ _ _ deletable =>
          exact (ih removing).trans (.reply waits deletable.live _)
      | replyWaiting _ _ _ _ deletable => exact (ih removing).trans (.reply waits deletable.live _)
      | setReturn =>
          refine (ih removing).trans (.of_map (fun t => ?_) rfl)
          rw [State.setReturn_tran]
          exact change_map fun _ => rfl
      | finish => exact (ih removing).trans (.of_map (fun t => change_map fun _ => rfl) rfl)
      | fail _ _ _ _ _ _ _ _ _ same =>
          exact (tables same).trans (.of_map (fun t => change_map fun _ => rfl) rfl)
      | spare _ _ _ _ _ same => exact tables same
      | detach _ _ _ _ reason advert =>
          refine Remains.trans ?_ (.detach waits advert _)
          rcases reason with ⟨_, settled⟩ | ⟨_, _, same⟩
          · exact ih (.inl settled)
          · exact tables same
      | sweep _ _ _ _ deletable => exact (ih removing).trans (.delTran waits deletable.live)
      | purge _ _ _ _ _ _ _ deletable => exact (ih removing).trans (.delTran waits deletable.live)
      | dropAdvert det =>
          exact (ih (.inr (by simp [det]))).trans (.of_map (fun _ => rfl) rfl)

/-! ## Transactions that end -/

/-- The deletion of client `c` ends transaction `t`, which it is executing, with an answer to the
client that waits for it. -/
structure Fails (σ : State) (e : Event) (c : ClientId) (t : TranId) (tr : Transaction) : Prop where
  closes : Closes σ e c
  works : σ.worker tr = some c
  serves : ∃ x ∈ σ.client c, x.wait4 = some (.tran t)
  awaited : ∃ k ∈ σ.client tr.client, k.wait4 = some (.tran t)

/-- The event ends transaction `t` as it should: it deletes the client that submitted it, or the
worker that executes it while that client waits for it. -/
def Ends (σ : State) (e : Event) (t : TranId) (tr : Transaction) : Prop :=
  Closes σ e tr.client ∨ ∃ c ∈ σ.clients, Fails σ e c t tr

instance (σ : State) (e : Event) (c : ClientId) (t : TranId) (tr : Transaction) :
    Decidable (Fails σ e c t tr) :=
  decidable_of_iff (Closes σ e c ∧ σ.worker tr = some c ∧
    (∃ x ∈ σ.client c, x.wait4 = some (.tran t)) ∧
      ∃ k ∈ σ.client tr.client, k.wait4 = some (.tran t))
    ⟨fun ⟨closes, works, serves, awaited⟩ => ⟨closes, works, serves, awaited⟩,
      fun ⟨closes, works, serves, awaited⟩ => ⟨closes, works, serves, awaited⟩⟩

instance (σ : State) (e : Event) (t : TranId) (tr : Transaction) : Decidable (Ends σ e t tr) :=
  inferInstanceAs (Decidable (_ ∨ _))

theorem settled_of_det {c : ClientId} {a : AdvertId} (trace : Trace σ₀ e ⟨{}, σ₀⟩ κ)
    (closes : Closes σ₀ e c) (det : κ.phase.det = some a) : κ.phase.settled = true := by
  induction trace with
  | refl => cases det
  | tail _ eff ih =>
      cases eff with
      | connect | fill | begin | dropAdvert | close | done => cases det
      | detach _ _ _ _ reason =>
          rcases reason with ⟨_, settled⟩ | ⟨_, ⟨_, received, _⟩, _⟩
          · exact settled
          · cases (closes.received received).1
      | fail | spare => rfl
      | dropClient _ noDet => simp [noDet] at det
      | _ => exact ih det

/-- The transaction goes from its worker to the client that waits for it, before anything else is
deleted. -/
theorem Fails.answered {c : ClientId} {t : TranId} {tr : Transaction} (fails : Fails σ₀ e c t tr)
    (start : Inv ⟨{}, σ₀⟩) (found : σ₀.tran t = some tr) (other : tr.client ≠ c)
    (trace : Trace σ₀ e ⟨{}, σ₀⟩ κ) (settled : κ.phase.settled = true) :
    κ.state.tran t = none ∨ κ.phase.fin = some t ∧ κ.phase.det = none ∧
      ∃ k, κ.state.client tr.client = some k ∧ k.wait4 = some (.tran t) := by
  induction trace with
  | refl => cases settled
  | @tail κ κ' sofar eff ih =>
      have inv := start.trace sofar
      obtain ⟨φ, σ⟩ := κ
      have phases : φ.Ok := inv.phases
      have still : φ.settled = true → φ.run = none ∧ φ.up = none ∧ φ.held = none ∧
          φ.parked = none := by
        intro settled
        obtain ⟨k, closing⟩ := phases.settled settled
        exact phases.closing k closing
      have stays : ∀ {key}, σ.tran t = none → put σ.tran key none t = none := by
        intro key gone
        unfold put
        split
        · rfl
        · exact gone
      cases eff with
      | connect | fill | begin | close | done | dropClient => cases settled
      | call busy | write _ busy | armHeader busy | next busy | submit busy | armUpload busy
      | assignWork busy | rest busy | block busy | replyQueued busy | setReturn busy
      | armReturn busy | finish busy | found busy | offer busy => simp [(still settled).1] at busy
      | enqueue busy | assignUp busy => simp [(still settled).2.1] at busy
      | release busy | resize busy => simp [(still settled).2.2.1] at busy
      | park busy => simp [(still settled).2.2.2] at busy
      | @fail _ _ k x t' _ _ _ closing _ live serves _ _ _ _ unsettled same =>
          obtain rfl := (closes_of_trace sofar closing).unique fails.closes
          obtain ⟨x₀, live₀, serves₀⟩ := fails.serves
          obtain ⟨k₀, owner₀, awaits₀⟩ := fails.awaited
          obtain ⟨x₁, live₁, tables⟩ := exists_of_map_eq (same.client k) live
          obtain rfl := Option.some.inj (live₀.symm.trans live₁)
          obtain ⟨k₁, owner₁, tables'⟩ := exists_of_map_eq (same.client tr.client).symm owner₀
          simp only [Client.tables, Prod.mk.injEq] at tables tables'
          rw [← tables.2.2.2, serves₀] at serves
          obtain rfl := Wait.tran.inj (Option.some.inj serves)
          refine .inr ⟨rfl, ?_, k₁, change_eq_some_iff.mpr ⟨k₁, owner₁, (if_neg other).symm⟩, ?_⟩
          · by_contra det
            obtain ⟨a, det⟩ := Option.ne_none_iff_exists'.mp det
            cases unsettled.symm.trans (settled_of_det sofar fails.closes det)
          · rw [tables'.2.2.2, awaits₀]
      | @spare _ _ k x closing _ _ live nothing same =>
          obtain rfl := (closes_of_trace sofar closing).unique fails.closes
          obtain ⟨x₀, live₀, serves₀⟩ := fails.serves
          obtain ⟨x₁, live₁, tables⟩ := exists_of_map_eq (same.client k) live
          obtain rfl := Option.some.inj (live₀.symm.trans live₁)
          simp only [Client.tables, Prod.mk.injEq] at tables
          obtain ⟨a, v, executor, advert, owner⟩ := State.worker_eq_some_iff.mp fails.works
          exact absurd owner (nothing t tr a v (tables.2.2.2.symm.trans serves₀)
            (same.tran ▸ found) executor (same.advert ▸ advert))
      | replyWaiting fin =>
          rcases ih settled with gone | ⟨fin', _⟩
          · exact .inl (stays gone)
          · obtain rfl := Option.some.inj (fin.symm.trans fin')
            exact .inl (if_pos rfl)
      | @requeue _ _ _ _ tr' fin current live elsewhere =>
          rcases ih settled with gone | ⟨fin', _, k, owner, awaits⟩
          · exact .inl gone
          · obtain rfl := Option.some.inj (fin.symm.trans fin')
            have same : tr.client = tr'.client := by
              rcases tran_of_trace sofar current with ⟨tr₀, found₀, place⟩ | ⟨_, filled, received⟩
              · rw [← Option.some.inj (found.symm.trans found₀)] at place
                exact client_of_place place
              · cases (fails.closes.received received).1
            rw [← same] at live
            obtain rfl := Option.some.inj (owner.symm.trans live)
            exact absurd awaits elsewhere
      | detach _ _ _ _ _ _ _ noFin =>
          rcases ih settled with gone | ⟨fin, _⟩
          · exact .inl gone
          · simp [noFin] at fin
      | orphan det =>
          rcases ih settled with gone | ⟨_, noDet, _⟩
          · exact .inl gone
          · cases noDet.symm.trans det
      | sweep orphan =>
          obtain ⟨a, det⟩ := phases.orphan _ orphan
          rcases ih settled with gone | ⟨_, noDet, _⟩
          · exact .inl (stays gone)
          · cases noDet.symm.trans det
      | dropService orphan =>
          obtain ⟨a, det⟩ := phases.orphan _ orphan
          rcases ih settled with gone | ⟨_, noDet, _⟩
          · exact .inl gone
          · cases noDet.symm.trans det
      | dropAdvert det =>
          rcases ih settled with gone | ⟨_, noDet, _⟩
          · exact .inl gone
          · cases noDet.symm.trans det
      | purge _ _ noFin =>
          rcases ih settled with gone | ⟨fin, _⟩
          · exact .inl (stays gone)
          · simp [noFin] at fin

/-- What the event ends is gone when a service goes away, or goes away with its client. -/
theorem Ends.gone {t : TranId} {tr tr' : Transaction} (ends : Ends σ₀ e t tr) (start : Inv ⟨{}, σ₀⟩)
    (found : σ₀.tran t = some tr) (trace : Trace σ₀ e ⟨{}, σ₀⟩ κ) {a : AdvertId}
    (det : κ.phase.det = some a) (current : κ.state.tran t = some tr') :
    κ.phase.closing = some tr.client := by
  have closing : Closes σ₀ e tr.client → κ.phase.closing = some tr.client := by
    intro closes
    rcases det_of_trace trace det with ⟨c, closing⟩ | ⟨_, _, _, received, _⟩
    · rw [closing, (closes_of_trace trace closing).unique closes]
    · cases (closes.received received).1
  rcases ends with closes | ⟨c, _, fails⟩
  · exact closing closes
  · by_cases mine : tr.client = c
    · exact closing (mine ▸ fails.closes)
    · rcases fails.answered start found mine trace (settled_of_det trace fails.closes det) with
        gone | ⟨_, noDet, _⟩
      · cases gone.symm.trans current
      · cases noDet.symm.trans det

/-! ## Requests -/

/-- The event does not take the last advertisement of a service away while transactions are waiting
for the service that it does not end. -/
def SparesRequests (σ : State) (e : Event) : Prop :=
  ∀ t ∈ σ.transactions, ∀ tr ∈ σ.tran t, Orphans σ e tr.svc → ¬σ.links.Alone (.tran t) →
    Ends σ e t tr

instance (σ : State) (e : Event) : Decidable (SparesRequests σ e) :=
  inferInstanceAs (Decidable (∀ t ∈ σ.transactions, ∀ tr ∈ σ.tran t, Orphans σ e tr.svc →
    ¬σ.links.Alone (.tran t) → Ends σ e t tr))

/-- In the course of the event, which leads from `σ` to `τ`, `snd_reply` writes the reply of
transaction `t` to the client that submitted it. -/
structure Replied (σ : State) (e : Event) (τ : State) (t : TranId) (tr : Transaction) : Prop where
  middle : ∃ φ μ tr' contents before after, Trace σ e ⟨{}, σ⟩ ⟨φ, μ⟩ ∧ μ.tran t = some tr' ∧
    tr'.place = tr.place ∧ μ.buf tr'.data = some contents ∧
    μ.sent tr.client = σ.sent tr.client ++ before ∧
    τ.sent tr.client = μ.sent tr.client ++ replyFrame tr' contents ++ after

theorem Replied.grows {t : TranId} {tr : Transaction} (replied : Replied σ₀ e σ t tr)
    (grows : σ.sent tr.client <+: τ.sent tr.client) : Replied σ₀ e τ t tr := by
  obtain ⟨φ, μ, tr', contents, before, after, trace, current, place, room, first, second⟩ :=
    replied.middle
  obtain ⟨more, sent⟩ := grows
  refine ⟨φ, μ, tr', contents, before, after ++ more, trace, current, place, room, first, ?_⟩
  rw [← sent, second, List.append_assoc]

theorem replied_of_reply {t : TranId} {tr tr' : Transaction} {contents : Bytes}
    (trace : Trace σ₀ e ⟨{}, σ₀⟩ ⟨φ, σ⟩) (current : σ.tran t = some tr')
    (place : tr'.place = tr.place) (room : σ.buf tr'.data = some contents) :
    Replied σ₀ e (σ.reply t tr' contents) t tr := by
  obtain ⟨before, sent⟩ := sent_grows_of_trace trace tr.client
  have owner : tr'.client = tr.client := congrArg Prod.fst place
  refine ⟨φ, σ, tr', contents, before, [], trace, current, place, room, sent.symm, ?_⟩
  rw [List.append_nil, ← owner]
  exact if_pos rfl

theorem answered_of_trace (start : Inv ⟨{}, σ₀⟩) (spares : SparesRequests σ₀ e)
    (trace : Trace σ₀ e ⟨{}, σ₀⟩ κ) {t : TranId} {tr : Transaction} (found : σ₀.tran t = some tr) :
    (∃ tr', κ.state.tran t = some tr' ∧ tr'.place = tr.place) ∨ Replied σ₀ e κ.state t tr ∨
      Closes σ₀ e tr.client := by
  induction trace with
  | refl => exact .inl ⟨tr, found, rfl⟩
  | @tail κ κ' sofar eff ih =>
      obtain ⟨φ, σ⟩ := κ
      have inv := start.trace sofar
      have phases : φ.Ok := inv.phases
      rcases ih with ⟨tr', current, place⟩ | replied | closes
      · have changed : ∀ {key update}, (∀ x : Transaction, (update x).place = x.place) →
            ∃ tr', change σ.tran key update t = some tr' ∧ tr'.place = tr.place := by
          intro key update same
          refine ⟨_, change_eq_some_iff.mpr ⟨tr', current, rfl⟩, ?_⟩
          split
          · exact (same tr').trans place
          · exact place
        have deleted : ∀ {key}, t ≠ key → ∃ tr', put σ.tran key none t = some tr' ∧
            tr'.place = tr.place :=
          fun different => ⟨tr', put_none_eq_some_iff.mpr ⟨different, current⟩, place⟩
        cases eff with
        | submit =>
            refine .inl ⟨tr', put_eq_some_iff.mpr (.inr ⟨?_, current⟩), place⟩
            rintro rfl
            have waits : WaitQueues σ := inv.waits
            cases (waits.fresh_tran (Nat.le_succ _)).symm.trans current
        | assignUp | assignWork | finish => exact .inl (changed fun _ => rfl)
        | fail => exact .inl (changed fun _ => rfl)
        | setReturn =>
            left
            rw [State.setReturn_tran]
            exact changed fun _ => rfl
        | @replyQueued _ _ _ _ _ t' _ _ _ _ _ _ _ _ deletable room =>
            by_cases same : t = t'
            · subst same
              obtain rfl := Option.some.inj (current.symm.trans deletable.live)
              exact .inr (.inl (replied_of_reply sofar current place room))
            · exact .inl (deleted same)
        | @replyWaiting _ _ _ t' _ _ _ _ _ _ deletable room =>
            by_cases same : t = t'
            · subst same
              obtain rfl := Option.some.inj (current.symm.trans deletable.live)
              exact .inr (.inl (replied_of_reply sofar current place room))
            · exact .inl (deleted same)
        | @sweep _ _ s t' _ orphan queued _ first =>
            by_cases same : t = t'
            · subst same
              have waits : WaitQueues σ := inv.waits
              have waiting := waits.queued_of_first queued first
              obtain ⟨_, current', svc⟩ := waits.tran_of_queued waiting
              obtain rfl := Option.some.inj (current.symm.trans current')
              obtain ⟨a, det⟩ := phases.orphan s orphan
              have removing : φ.Removing := .inr (by simp [det])
              obtain ⟨tr₀, found₀, _, alone⟩ := remains_of_trace start sofar removing t tr' current
              obtain rfl := Option.some.inj (found.symm.trans found₀)
              have named : tr.svc = s := (congrArg (·.2.1) place).symm.trans svc
              have ends := spares t ((start.own.mem_transactions t).mpr ⟨tr, found⟩) tr found
                (named ▸ orphans_of_trace start sofar orphan)
                (fun alone₀ => WaitQueues.not_alone_of_queued waiting (alone.mpr alone₀))
              exact .inr (.inr (closes_of_trace sofar (ends.gone start found sofar det current)))
            · exact .inl (deleted same)
        | @purge _ _ c _ t' _ closing _ _ _ live _ mine =>
            by_cases same : t = t'
            · subst same
              have member : t ∈ Client.outstanding _ := List.mem_append.mpr mine
              obtain ⟨_, current', owner⟩ := inv.own.mine c _ t live member
              obtain rfl := Option.some.inj (current.symm.trans current')
              have mine : tr.client = c := (congrArg Prod.fst place).symm.trans owner
              exact .inr (.inr (mine ▸ closes_of_trace sofar closing))
            · exact .inl (deleted same)
        | _ => exact .inl ⟨tr', current, place⟩
      · exact .inr (.inl (replied.grows (eff.sent_grows _)))
      · exact .inr (.inr closes)

/-- As long as no service goes away while requests wait for it, a transaction that ceases to exist
has been answered, or has gone with the client that submitted it. -/
theorem requests_not_lost (reach : Reachable anyStep σ) (spares : SparesRequests σ e)
    (done : step σ e = .ok τ) {t : TranId} {tr : Transaction} (found : σ.tran t = some tr)
    (gone : τ.tran t = none) :
    Replied σ e τ t tr ∨ tr.client ∈ σ.clients ∧ tr.client ∉ τ.clients := by
  have inv := inv_of_reachable reach
  rcases answered_of_trace inv spares (step_trace inv done) found with ⟨tr', current, _⟩ |
    replied | closes
  · cases gone.symm.trans current
  · exact .inl replied
  · exact .inr ⟨closes.connected, gone_of_closes reach closes done (show run τ [] = .ok τ from rfl)⟩

open Scenario in
theorem requests_not_lost_returned : ∃ σ τ tr, Reachable anyStep σ ∧ σ.tran 11 = some tr ∧
    τ.tran 11 = none ∧ step σ (receive 0 (2 :: longBytes 0 ++ longBytes 0) 0) = .ok τ ∧
    (Replied σ (receive 0 (2 :: longBytes 0 ++ longBytes 0) 0) τ 11 tr ∨
      tr.client ∈ σ.clients ∧ tr.client ∉ τ.clients) := by
  obtain ⟨σ, _, reach, seen⟩ := reachable_of_outcome
    ([connect, connect] ++ advertise 0 65 ++ work 0 ++ call 2 65 0 9 ++ getrply 2 9
      0 ++ [receive 0 [TPTRETN] 0])
    (fun σ => decide (SparesRequests σ (receive 0 (2 :: longBytes 0 ++ longBytes 0) 0)) &&
      (step σ (receive 0 (2 :: longBytes 0 ++ longBytes 0) 0)).toOption.any fun (τ : State) =>
        decide ((σ.tran 11).isSome ∧ τ.tran 11 = none)) true (by decide +kernel)
  obtain ⟨spares, seen⟩ := (Bool.and_eq_true _ _).mp seen
  obtain ⟨τ, done, seen⟩ := ok_of_any seen
  obtain ⟨current, gone⟩ := of_decide_eq_true seen
  obtain ⟨tr, found⟩ := Option.isSome_iff_exists.mp current
  exact ⟨σ, τ, tr, reach, found, gone, done,
    requests_not_lost reach (of_decide_eq_true spares) done found gone⟩

open Scenario in
/-- Client 2 waits for its transaction, which is waiting for the service of client 0. When client 0
withdraws the service the transaction is deleted, and client 2 is told nothing. -/
theorem request_swept_away :
    ∃ σ τ tr, Reachable anyStep σ ∧ step σ (receive 0 (svcname 65) 0) = .ok τ ∧
    σ.tran 10 = some tr ∧ tr.client = 2 ∧ (σ.client 2).bind Client.wait4 = some (.tran 10) ∧
    τ.tran 10 = none ∧ 2 ∈ τ.clients ∧ τ.sent 2 = σ.sent 2 := by
  obtain ⟨σ, _, reach, seen⟩ := reachable_of_outcome
    ([connect, connect] ++ advertise 0 65 ++ call 2 65 0 9 ++ getrply 2 9
      0 ++ [receive 0 [TPTUADV] 0])
    (fun σ => (step σ (receive 0 (svcname 65) 0)).toOption.any fun (τ : State) =>
        decide (∃ tr ∈ σ.tran 10, tr.client = 2 ∧ (σ.client 2).bind Client.wait4 = some (.tran 10) ∧
          τ.tran 10 = none ∧ 2 ∈ τ.clients ∧ τ.sent 2 = σ.sent 2)) true (by decide +kernel)
  obtain ⟨τ, done, seen⟩ := ok_of_any seen
  obtain ⟨tr, found, lost⟩ := of_decide_eq_true seen
  exact ⟨σ, τ, tr, reach, done, found, lost⟩

/-! ## Services -/

/-- An event that takes the last advertisement of a service away ends every transaction of the
service, apart from those on its queue. -/
def KeepsNamed (σ : State) (e : Event) : Prop :=
  ∀ t ∈ σ.transactions, ∀ tr ∈ σ.tran t, Orphans σ e tr.svc → σ.links.Alone (.tran t) →
    Ends σ e t tr

instance (σ : State) (e : Event) : Decidable (KeepsNamed σ e) :=
  inferInstanceAs (Decidable (∀ t ∈ σ.transactions, ∀ tr ∈ σ.tran t, Orphans σ e tr.svc →
    σ.links.Alone (.tran t) → Ends σ e t tr))

/-- The service of a transaction is there, unless the client that submitted the transaction is being
deleted. -/
def Named (φ : Phase) (σ : State) : Prop :=
  ∀ t tr, σ.tran t = some tr → (∃ svc, σ.service tr.svc = some svc) ∨ φ.closing = some tr.client

namespace Named

/-- What creates no transaction and takes no service away. -/
theorem mono (inv : Named φ σ)
    (tran : ∀ t tr, τ.tran t = some tr → ∃ tr', σ.tran t = some tr' ∧ tr'.place = tr.place)
    (service : ∀ s svc, σ.service s = some svc → ∃ svc', τ.service s = some svc')
    (closing : φ'.closing = φ.closing) : Named φ' τ := by
  intro t tr found
  obtain ⟨tr', found', place⟩ := tran t tr found
  obtain ⟨client, svc, _⟩ : tr'.client = tr.client ∧ tr'.svc = tr.svc ∧ tr'.cd = tr.cd := by
    simpa [Transaction.place] using place
  rw [closing, ← client, ← svc]
  exact (inv t tr' found').imp_left fun ⟨svc, current⟩ => service _ svc current

theorem congr (inv : Named φ σ) (tran : τ.tran = σ.tran) (service : τ.service = σ.service)
    (closing : φ'.closing = φ.closing) : Named φ' τ :=
  inv.mono (fun _ tr found => ⟨tr, tran ▸ found, rfl⟩) (fun _ svc current =>
    ⟨svc, service ▸ current⟩) closing

theorem effect (inv : Named φ σ) (all : Inv ⟨φ, σ⟩) (start : Inv ⟨{}, σ₀⟩) (keeps : KeepsNamed σ₀ e)
    (trace : Trace σ₀ e ⟨{}, σ₀⟩ ⟨φ, σ⟩) (eff : Effect σ₀ e ⟨φ, σ⟩ ⟨φ', τ⟩) : Named φ' τ := by
  have phases : φ.Ok := all.phases
  have waits : WaitQueues σ := all.waits
  have own : Ownership σ := all.own
  have changed : ∀ {key update} {t : TranId} {tr : Transaction},
      change σ.tran key update t = some tr → (∀ x : Transaction, (update x).place = x.place) →
      ∃ tr', σ.tran t = some tr' ∧ tr'.place = tr.place := by
    intro key update t tr found same
    obtain ⟨tr', found', rfl⟩ := change_eq_some_iff.mp found
    refine ⟨tr', found', ?_⟩
    split
    · exact (same tr').symm
    · rfl
  have deleted : ∀ {key} {t : TranId} {tr : Transaction}, put σ.tran key none t = some tr →
      ∃ tr', σ.tran t = some tr' ∧ tr'.place = tr.place :=
    fun found => ⟨_, (put_none_eq_some_iff.mp found).2, rfl⟩
  have same : ∀ s svc, σ.service s = some svc → ∃ svc', σ.service s = some svc' :=
    fun _ svc current => ⟨svc, current⟩
  have kept : ∀ {key update} s svc, σ.service s = some svc →
      ∃ svc', change σ.service key update s = some svc' :=
    fun s svc current => ⟨_, change_eq_some_iff.mpr ⟨svc, current, rfl⟩⟩
  cases eff with
  | connect | fill | call | write | release | resize | armHeader | next | armUpload | rest
  | block | requeue | armReturn | spare | offer | detach | orphan | dropAdvert =>
      exact inv.congr rfl rfl rfl
  | begin => exact inv.congr rfl rfl rfl
  | submit _ _ _ _ service =>
      intro t tr found
      rcases put_eq_some_iff.mp found with ⟨_, made⟩ | ⟨_, found⟩
      · obtain rfl := Option.some.inj made
        exact .inl ⟨_, service⟩
      · exact inv t tr found
  | enqueue | park => exact inv.mono (fun t tr found => ⟨tr, found, rfl⟩) kept rfl
  | assignUp | assignWork | finish =>
      exact inv.mono (fun t tr found => changed found fun _ => rfl) same rfl
  | fail => exact inv.mono (fun t tr found => changed found fun _ => rfl) same rfl
  | replyQueued | replyWaiting | sweep | purge =>
      exact inv.mono (fun t tr found => deleted found) same rfl
  | setReturn =>
      refine inv.mono (fun t tr found => ?_) same rfl
      rw [State.setReturn_tran] at found
      exact changed found fun _ => rfl
  | found =>
      refine inv.mono (fun t tr found => ⟨tr, found, rfl⟩) (fun s svc current => ⟨svc, ?_⟩) rfl
      refine put_eq_some_iff.mpr (.inr ⟨?_, current⟩)
      rintro rfl
      cases waits.fresh_service.symm.trans current
  | close _ quiet =>
      intro t tr found
      rcases inv t tr found with named | closing
      · exact .inl named
      · rcases quiet with rfl | rfl <;> cases closing
  | done quiet =>
      intro t tr found
      rcases inv t tr found with named | closing
      · exact .inl named
      · rcases quiet with rfl | ⟨c, rfl⟩ | ⟨c, rfl⟩ <;> cases closing
  | @dropService _ _ s orphan empty =>
      intro t tr found
      rcases inv t tr found with ⟨svc, current⟩ | closing
      · by_cases named : tr.svc = s
        · subst named
          have lonely : σ.links.Alone (.tran t) := by
            rcases waits.tran t tr found with alone | ⟨waiting, queue, member⟩
            · exact alone
            · have none_waits := queue.2.p1_head_eq_iff.mp empty
              rw [List.map_eq_nil_iff] at none_waits
              simp [none_waits] at member
          obtain ⟨a, det⟩ := phases.orphan _ orphan
          have removing : φ.Removing := .inr (by simp [det])
          obtain ⟨tr₀, found₀, place, alone⟩ := remains_of_trace start trace removing t tr found
          have client : tr₀.client = tr.client := congrArg Prod.fst place
          have service : tr₀.svc = tr.svc := congrArg (·.2.1) place
          have ends := keeps t ((start.own.mem_transactions t).mpr ⟨tr₀, found₀⟩) tr₀ found₀
            (service ▸ orphans_of_trace start trace orphan) (alone.mp lonely)
          exact .inr (client ▸ ends.gone start found₀ trace det found)
        · exact .inl ⟨svc, put_none_eq_some_iff.mpr ⟨named, current⟩⟩
      · exact .inr closing
  | @dropClient _ _ c x closing _ _ live _ noRequests noReplies =>
      intro t tr found
      refine (inv t tr found).imp_right fun closing' => ?_
      obtain rfl := Option.some.inj (closing.symm.trans closing')
      obtain ⟨y, live', member⟩ := own.owned t tr found
      obtain rfl := Option.some.inj (live.symm.trans live')
      simp [Client.outstanding, noRequests, noReplies] at member

end Named

/-- As long as no service goes away before the transactions that name it, the service of every
transaction is in the tree; in particular that of a transaction whose data has just been read. -/
theorem services_outlive_transactions (reach : Reachable KeepsNamed σ) :
    (∀ t tr, σ.tran t = some tr → tr.svc ∈ σ.services ∧ ∃ svc, σ.service tr.svc = some svc) ∧
      ∀ e c x filled, Received σ e c .sendToWorker filled → σ.client c = some x →
        ∃ t tr svc, x.requests.getLast? = some t ∧ σ.tran t = some tr ∧ tr.svc ∈ σ.services ∧
          σ.service tr.svc = some svc := by
  have inv := inv_of_reachable reach
  have named : Named {} σ := by
    refine Reachable.induction (motive := fun κ => Named κ.phase κ.state) ?_ ?_ reach
    · simp [Named, State.start]
    · rintro σ₀ e ⟨φ, σ⟩ ⟨φ', τ⟩ reach keeps _ trace all named eff
      exact named.effect all (inv_of_reachable reach) keeps trace eff
  have served : ∀ t tr, σ.tran t = some tr → ∃ svc, σ.service tr.svc = some svc :=
    fun t tr found => (named t tr found).resolve_right (by simp)
  have kept : ∀ t tr, σ.tran t = some tr → tr.svc ∈ σ.services ∧ ∃ svc,
      σ.service tr.svc = some svc :=
    fun t tr found => ⟨(inv.registry.mem_services _).mpr (served t tr found), served t tr found⟩
  refine ⟨kept, ?_⟩
  intro e c x filled received live
  obtain ⟨_, y, _, _, _, _, _, live', reading, _⟩ := received_elim received
  obtain rfl := Option.some.inj (live.symm.trans live')
  obtain ⟨t, tr, uploading, _⟩ := inv.dispatches.upload c x live reading (by simp)
  obtain ⟨member, svc, current⟩ := kept t tr uploading.found
  exact ⟨t, tr, svc, uploading.last, uploading.found, member, current⟩

open Scenario in
theorem services_outlive_transactions_uploading : ∃ σ x t tr svc, Reachable KeepsNamed σ ∧
    Received σ (receive 2 [7] 0) 2 .sendToWorker [7] ∧ σ.client 2 = some x ∧
    x.requests.getLast? = some t ∧ σ.tran t = some tr ∧ tr.svc ∈ σ.services ∧
    σ.service tr.svc = some svc := by
  obtain ⟨σ, reach, seen⟩ := reachable_of_permitted
    ([connect, connect, connect] ++ advertise 0 65 ++ advertise 4 65 ++ call 2 65 1
      9 ++ unadvertise 0 65)
    (fun σ => decide (received σ (receive 2 [7] 0) = some (2, .sendToWorker, [7]) ∧
      (σ.client 2).isSome)) true
    (show permitted KeepsNamed _ _ = true by decide +kernel) (by decide +kernel)
  obtain ⟨received, connected⟩ := of_decide_eq_true seen
  obtain ⟨x, live⟩ := Option.isSome_iff_exists.mp connected
  obtain ⟨t, tr, svc, last, found, member, current⟩ :=
    (services_outlive_transactions reach).2 _ _ x _ received live
  exact ⟨σ, x, t, tr, svc, reach, received, live, last, found, member, current⟩

open Scenario in
/-- Client 0 withdraws the service while client 2 is sending the data of a request to it. The
service is gone, the transaction is not, and the last byte of the data leads to the freed
service. -/
theorem service_freed_under_upload : ∃ σ tr, Reachable anyStep σ ∧ σ.tran 10 = some tr ∧
    tr.svc ∉ σ.services ∧ σ.service tr.svc = none ∧
    Received σ (receive 2 [7] 0) 2 .sendToWorker [7] ∧
    step σ (receive 2 [7] 0) = .error .useAfterFree := by
  obtain ⟨σ, _, reach, seen⟩ := reachable_of_outcome
    ([connect, connect] ++ advertise 0 65 ++ call 2 65 1 9 ++ unadvertise 0 65)
    (fun σ => decide (∃ tr ∈ σ.tran 10, tr.svc ∉ σ.services ∧ σ.service tr.svc = none ∧
      received σ (receive 2 [7] 0) = some (2, .sendToWorker, [7]) ∧
      fault (step σ (receive 2 [7] 0)) = some .useAfterFree)) true (by decide +kernel)
  obtain ⟨tr, found, outside, freed, received, dies⟩ := of_decide_eq_true seen
  exact ⟨σ, tr, reach, found, outside, freed, received, fault_eq_some_iff.mp dies⟩

end Switchboard
end Xatmi
