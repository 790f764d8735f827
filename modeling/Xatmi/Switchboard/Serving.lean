import Xatmi.Switchboard.Executors
import Xatmi.Switchboard.Faults

/-!
# What clients wait for

A client waits for a request of its own or, being a worker, for the transaction it executes. As long
as no transaction is dispatched twice and no executor is withdrawn, that transaction is a current
one.
-/

namespace Xatmi
namespace Switchboard

/-- No transaction is dispatched twice, and no executor is withdrawn. -/
def Orderly (σ : State) (e : Event) : Prop :=
  PicksNew σ e ∧ KeepsExecutors σ e

instance (σ : State) (e : Event) : Decidable (Orderly σ e) :=
  inferInstanceAs (Decidable (_ ∧ _))

/-- Client `c` submitted the current transaction `t`, or executes it. -/
def State.Party (σ : State) (c : ClientId) (t : TranId) : Prop :=
  ∃ tr, σ.tran t = some tr ∧ (tr.client = c ∨ σ.worker tr = some c)

theorem State.worker_eq_some_iff {σ : State} {tr : Transaction} {c : ClientId} :
    σ.worker tr = some c ↔ ∃ a v, tr.executor = some a ∧ σ.advert a = some v ∧ v.client = c := by
  simp [State.worker, Option.bind_eq_some_iff]

/-- Who submitted the transaction, and through which advertisement it is executed. -/
def Transaction.parties (tr : Transaction) : ClientId × Option AdvertId :=
  (tr.client, tr.executor)

/-- What clients wait for concerns them. -/
def Serving (σ : State) : Prop :=
  ∀ c x t, σ.client c = some x → x.wait4 = some (.tran t) → σ.Party c t

namespace Serving

variable {φ φ' : Phase} {σ τ σ₀ : State} {e : Event}

theorem mono (inv : Serving σ)
    (client : ∀ c y t, τ.client c = some y → y.wait4 = some (.tran t) →
      ∃ x, σ.client c = some x ∧ x.wait4 = some (.tran t))
    (party : ∀ c y t, τ.client c = some y → y.wait4 = some (.tran t) → σ.Party c t → τ.Party c t) :
    Serving τ := by
  intro c y t live waits
  obtain ⟨x, live', waits'⟩ := client c y t live waits
  exact party c y t live waits (inv c x t live' waits')

/-- What touches neither the parties of transactions nor advertisements. -/
theorem congr (inv : Serving σ)
    (client : ∀ c, (τ.client c).map Client.wait4 = (σ.client c).map Client.wait4)
    (tran : ∀ t, (τ.tran t).map Transaction.parties = (σ.tran t).map Transaction.parties)
    (advert : τ.advert = σ.advert) : Serving τ := by
  refine inv.mono ?_ ?_
  · intro c y t live waits
    obtain ⟨x, live', same⟩ := exists_of_map_eq (client c) live
    exact ⟨x, live', same.trans waits⟩
  · rintro c y t _ _ ⟨tr, found, party⟩
    obtain ⟨tr', found', same⟩ := exists_of_map_eq (tran t).symm found
    simp only [Transaction.parties, Prod.mk.injEq] at same
    refine ⟨tr', found', ?_⟩
    simp only [State.worker, advert, same.1, same.2] at party ⊢
    exact party

/-- Nobody waits for a transaction that has been deleted. -/
theorem delTran (inv : Serving σ) {t : TranId} {tr : Transaction} (found : σ.tran t = some tr) :
    Serving (σ.delTran t tr) := by
  intro c y t' live waits
  obtain ⟨x, live', rfl⟩ := Option.map_eq_some_iff.mp live
  simp only [State.bereave] at waits
  split at waits
  · cases waits
  · rename_i stays
    obtain ⟨tr', found', party⟩ := inv c x t' live' waits
    have different : t' ≠ t := by
      rintro rfl
      obtain rfl := Option.some.inj (found.symm.trans found')
      exact stays ⟨waits, party.imp_left Eq.symm⟩
    exact ⟨tr', put_none_eq_some_iff.mpr ⟨different, found'⟩, party⟩

theorem reply (inv : Serving σ) {t : TranId} {tr : Transaction} (contents : Bytes)
    (found : σ.tran t = some tr) : Serving (σ.reply t tr contents) := by
  have released : Serving (((σ.write tr.client (replyFrame tr contents)).nextCommand
      tr.client).mapClient tr.client fun x => { x with wait4 := none }) := by
    refine inv.mono ?_ fun _ _ _ _ _ => id
    intro c y t' live waits
    obtain ⟨z, live', rfl⟩ := change_eq_some_iff.mp live
    obtain ⟨x, live'', rfl⟩ := change_eq_some_iff.mp live'
    refine ⟨x, live'', ?_⟩
    split at waits
    · cases waits
    · exact waits
  exact released.delTran found

/-- A transaction without a worker is given one. -/
theorem assign (inv : Serving σ) {a : AdvertId} {v : Advert} {t : TranId} {tr : Transaction}
    (frame : Bytes) (advert : σ.advert a = some v) (found : σ.tran t = some tr)
    (new : tr.executor = none) :
    Serving (σ.assign a v t frame) := by
  have given : (σ.assign a v t frame).tran t = some { tr with executor := some a } :=
    change_eq_some_iff.mpr ⟨tr, found, (if_pos rfl).symm⟩
  intro c y t' live waits
  obtain ⟨z, live', rfl⟩ := change_eq_some_iff.mp live
  obtain ⟨x, live'', rfl⟩ := change_eq_some_iff.mp live'
  by_cases worker : c = v.client
  · rw [if_pos worker, if_pos worker] at waits
    obtain rfl : t = t' := Wait.tran.inj (Option.some.inj waits)
    exact ⟨_, given, .inr (State.worker_eq_some_iff.mpr ⟨a, v, rfl, advert, worker.symm⟩)⟩
  · rw [if_neg worker, if_neg worker] at waits
    obtain ⟨tr', found', party⟩ := inv c x t' live'' waits
    by_cases same : t' = t
    · subst same
      obtain rfl := Option.some.inj (found.symm.trans found')
      refine ⟨_, given, .inl (party.resolve_right fun works => ?_)⟩
      obtain ⟨_, _, executor, _⟩ := State.worker_eq_some_iff.mp works
      rw [new] at executor
      cases executor
    · exact ⟨tr', change_eq_some_iff.mpr ⟨tr', found', (if_neg same).symm⟩, party⟩

/-- A transaction is taken from its only worker. -/
theorem finish (inv : Serving σ) {c : ClientId} {t : TranId} {tr : Transaction}
    {result : Transaction → Transaction} (client : ∀ tr, (result tr).client = tr.client)
    (found : σ.tran t = some tr) (only : ∀ k, σ.worker tr = some k → k = c) :
    Serving (σ.finish c t result) := by
  intro k y t' live waits
  obtain ⟨x, live', rfl⟩ := change_eq_some_iff.mp live
  by_cases mine : k = c
  · rw [if_pos mine] at waits
    cases waits
  · rw [if_neg mine] at waits
    obtain ⟨tr', found', party⟩ := inv k x t' live' waits
    by_cases same : t' = t
    · subst same
      obtain rfl := Option.some.inj (found.symm.trans found')
      have submitted : tr.client = k := party.resolve_right fun works => mine (only k works)
      exact ⟨_, change_eq_some_iff.mpr ⟨tr, found, (if_pos rfl).symm⟩,
        .inl ((client tr).trans submitted)⟩
    · exact ⟨tr', change_eq_some_iff.mpr ⟨tr', found', (if_neg same).symm⟩, party⟩

theorem effect (inv : Serving σ) (sound : Sound ⟨φ, σ⟩) (executors : Executors φ σ)
    (new : PicksNew σ₀ e) (eff : Effect σ₀ e ⟨φ, σ⟩ ⟨φ', τ⟩) : Serving τ := by
  have all := sound.all
  have dispatches : Dispatches φ σ := all.dispatches
  have registry : Registry φ σ := all.registry
  have own : Ownership σ := all.own
  have waitQueues : WaitQueues σ := all.waits
  have fresh : Fresh σ := all.fresh
  cases eff with
  | rest | spare | orphan | close | done => exact inv
  | call | write | release | resize | enqueue | park | found | dropService =>
      exact inv.congr (fun _ => rfl) (fun _ => rfl) rfl
  | fill | begin | armHeader | next | armUpload | armReturn | requeue | detach =>
      exact inv.congr (fun _ => change_map fun _ => rfl) (fun _ => rfl) rfl
  | connect =>
      refine inv.mono ?_ fun _ _ _ _ _ => id
      intro c y t live waits
      obtain ⟨z, live', rfl⟩ := change_eq_some_iff.mp live
      rcases put_eq_some_iff.mp live' with ⟨rfl, made⟩ | ⟨other, live'⟩
      · rw [if_pos rfl, ← Option.some.inj made] at waits
        cases waits
      · rw [if_neg other] at waits
        exact ⟨z, live', waits⟩
  | submit =>
      refine inv.mono ?_ ?_
      · intro c y t live waits
        obtain ⟨x, live', rfl⟩ := change_eq_some_iff.mp live
        refine ⟨x, live', ?_⟩
        split at waits <;> exact waits
      · rintro c y t _ _ ⟨tr', found, party⟩
        have old : t ≠ σ.next + 1 := by
          rintro rfl
          rw [waitQueues.fresh_tran (Nat.le_succ _)] at found
          cases found
        exact ⟨tr', put_eq_some_iff.mpr (.inr ⟨old, found⟩), party⟩
  | assignUp up found _ _ _ _ advert =>
      obtain ⟨tr', x, uploading, _⟩ := dispatches.uploaded _ up
      obtain rfl := Option.some.inj (found.symm.trans uploading.found)
      exact assign (σ := σ.dismiss _) (inv.congr (fun _ => rfl) (fun _ => rfl) rfl) _ advert found
        (dispatches.executor_eq_none_of_uploading uploading)
  | assignWork _ asked picked _ _ advert _ _ _ _ _ _ found _ _ fresh =>
      refine assign (σ := σ.dismiss _) (inv.congr (fun _ => rfl) (fun _ => rfl) rfl) _
        advert found ?_
      by_contra executor
      obtain ⟨a, executor⟩ := Option.ne_none_iff_exists'.mp executor
      obtain ⟨k, seen, _⟩ := dispatches.executor _ _ a found executor
      exact new.undispatched asked picked ⟨a, k, fresh _ _ _ seen⟩
  | @block _ _ c x w _ live _ _ awaited =>
      intro k y t live' waits
      obtain ⟨z, live'', rfl⟩ := change_eq_some_iff.mp live'
      split at waits
      · rename_i mine
        subst mine
        obtain rfl := Option.some.inj (live.symm.trans live'')
        obtain rfl : w = .tran t := Option.some.inj waits
        rcases awaited with ⟨impossible, _⟩ | ⟨t', same, member⟩
        · cases impossible
        · obtain rfl := Wait.tran.inj same
          obtain ⟨tr, found, owner⟩ := own.mine k x t live (List.mem_append_left _ member)
          exact ⟨tr, found, .inl owner⟩
      · exact inv k z t live'' waits
  | replyQueued _ _ _ _ _ _ deletable => exact inv.reply _ deletable.live
  | replyWaiting _ _ _ _ deletable => exact inv.reply _ deletable.live
  | setReturn =>
      refine inv.congr (fun _ => rfl) (fun t => ?_) rfl
      rw [State.setReturn_tran]
      exact change_map fun _ => rfl
  | @finish _ _ c x t tr running _ live serves found =>
      refine inv.finish (fun _ => rfl) found fun k works => ?_
      obtain ⟨a, v, executor, advert, owner⟩ := State.worker_eq_some_iff.mp works
      obtain ⟨_, seen⟩ := (dispatches.active c x live (.inr running)).2 t serves
      obtain ⟨_, seen', worker⟩ := dispatches.executor t tr a found executor
      rw [← owner, worker v advert]
      exact (worker_unique sound.parking.once seen' seen).2
  | @fail _ _ c x t tr a v _ _ _ _ found executor advert mine =>
      refine inv.finish (fun _ => rfl) found fun k works => ?_
      obtain ⟨a', v', executor', advert', owner⟩ := State.worker_eq_some_iff.mp works
      obtain rfl := Option.some.inj (executor.symm.trans executor')
      obtain rfl := Option.some.inj (advert.symm.trans advert')
      exact owner.symm.trans mine
  | offer =>
      refine inv.mono ?_ ?_
      · intro c y t live waits
        obtain ⟨x, live', rfl⟩ := change_eq_some_iff.mp live
        refine ⟨x, live', ?_⟩
        split at waits <;> exact waits
      · rintro c y t _ _ ⟨tr, found, party⟩
        refine ⟨tr, found, party.imp_right fun works => ?_⟩
        obtain ⟨a, v, executor, advert, owner⟩ := State.worker_eq_some_iff.mp works
        have old : a ≠ σ.next := by
          rintro rfl
          rw [waitQueues.fresh_advert] at advert
          cases advert
        exact State.worker_eq_some_iff.mpr ⟨a, v, executor,
          put_eq_some_iff.mpr (.inr ⟨old, advert⟩), owner⟩
  | sweep _ _ _ _ deletable => exact inv.delTran deletable.live
  | purge _ _ _ _ _ _ _ deletable => exact inv.delTran deletable.live
  | @dropAdvert _ _ a det =>
      refine inv.mono (fun c y t live waits => ⟨y, live, waits⟩) ?_
      rintro c y t _ _ ⟨tr, found, party⟩
      refine ⟨tr, found, party.imp_right fun works => ?_⟩
      obtain ⟨b, v, executor, advert, owner⟩ := State.worker_eq_some_iff.mp works
      have stays : b ≠ a := by
        rintro rfl
        exact (executors.current t tr b found executor).1 det
      exact State.worker_eq_some_iff.mpr
        ⟨b, v, executor, put_none_eq_some_iff.mpr ⟨stays, advert⟩, owner⟩
  | dropClient =>
      refine inv.mono (fun c y t live waits => ⟨y, (put_none_eq_some_iff.mp live).2, waits⟩) ?_
      exact fun _ _ _ _ _ => id

end Serving

/-! ## Orderly runs -/

/-- The invariants of an orderly run, also in the middle of a step. -/
structure InOrder (κ : Conf) : Prop where
  sound : Sound κ
  executors : Executors κ.phase κ.state
  serving : Serving κ.state

variable {σ σ₀ : State} {e : Event} {κ κ' : Conf}

theorem InOrder.trace (inOrder : InOrder ⟨{}, σ⟩) (orderly : Orderly σ e)
    (trace : Trace σ e ⟨{}, σ⟩ κ) :
    InOrder κ := by
  induction trace with
  | refl => exact inOrder
  | tail sofar eff ih =>
      exact ⟨ih.sound.effect inOrder.sound.parking orderly.1 eff,
        ih.executors.effect ih.sound.all inOrder.sound.all sofar orderly.2 eff,
        ih.serving.effect ih.sound ih.executors orderly.1 eff⟩

theorem inOrder_of_reachable (reach : Reachable Orderly σ) : InOrder ⟨{}, σ⟩ := by
  induction reach with
  | start =>
      refine ⟨⟨inv_of_reachable (Reachable.start : Reachable anyStep .start), .start⟩, ?_, ?_⟩
      · constructor <;> simp [State.start]
      · simp [Serving, State.start]
  | next _ orderly done ih => exact ih.trace orderly (step_trace ih.sound.all done)

end Switchboard
end Xatmi
