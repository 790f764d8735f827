import Xatmi.Switchboard.Handling
import Xatmi.Switchboard.Scenario

/-!
# Executors

A transaction points to the advertisement through which it was dispatched. `del_advertisement` does
not look for such transactions; only `del_client` clears the pointer, and only in the transaction
its client is waiting for.
-/

namespace Xatmi
namespace Switchboard

/-- No advertisement is withdrawn while a transaction is executed through it, unless its client is
deleted and that is the transaction it is waiting for. -/
structure KeepsExecutors (σ : State) (e : Event) : Prop where
  withdrawn : ∀ c ∈ σ.clients, ∀ t ∈ σ.transactions, ∀ tr ∈ σ.tran t, ∀ a ∈ tr.executor,
    ¬Unadvertises σ e c a
  deleted : ∀ c ∈ σ.clients, Closes σ e c → ∀ x ∈ σ.client c, ∀ t ∈ σ.transactions,
    ∀ tr ∈ σ.tran t, ∀ a ∈ tr.executor, ∀ v ∈ σ.advert a, v.client = c → x.wait4 = some (.tran t)

instance (σ : State) (e : Event) : Decidable (KeepsExecutors σ e) :=
  decidable_of_iff
    ((∀ c ∈ σ.clients, ∀ t ∈ σ.transactions, ∀ tr ∈ σ.tran t, ∀ a ∈ tr.executor,
        ¬Unadvertises σ e c a) ∧
      ∀ c ∈ σ.clients, Closes σ e c → ∀ x ∈ σ.client c, ∀ t ∈ σ.transactions,
        ∀ tr ∈ σ.tran t, ∀ a ∈ tr.executor, ∀ v ∈ σ.advert a, v.client = c →
          x.wait4 = some (.tran t))
    ⟨fun ⟨withdrawn, deleted⟩ => ⟨withdrawn, deleted⟩,
      fun ⟨withdrawn, deleted⟩ => ⟨withdrawn, deleted⟩⟩

/-- Executors are current, and none belongs to a client that is rid of what it was executing. -/
structure Executors (φ : Phase) (σ : State) : Prop where
  current : ∀ t tr a, σ.tran t = some tr → tr.executor = some a →
    φ.det ≠ some a ∧ ∃ v, σ.advert a = some v
  rid : ∀ c, φ.closing = some c → φ.settled = true → ∀ t tr a v, σ.tran t = some tr →
    tr.executor = some a → σ.advert a = some v → v.client ≠ c

namespace Executors

variable {φ φ' : Phase} {σ τ σ₀ : State} {e : Event}

theorem mono (inv : Executors φ σ)
    (tran : ∀ t tr a, τ.tran t = some tr → tr.executor = some a →
      ∃ tr', σ.tran t = some tr' ∧ tr'.executor = some a)
    (advert : τ.advert = σ.advert) (det : φ'.det = φ.det)
    (closing : ∀ c, φ'.closing = some c → φ'.settled = true →
      φ.closing = some c ∧ φ.settled = true) : Executors φ' τ := by
  constructor
  · intro t tr a found executor
    obtain ⟨tr', found', executor'⟩ := tran t tr a found executor
    rw [det, advert]
    exact inv.current t tr' a found' executor'
  · intro c closes settled t tr a v found executor
    obtain ⟨tr', found', executor'⟩ := tran t tr a found executor
    obtain ⟨closes', settled'⟩ := closing c closes settled
    rw [advert]
    exact inv.rid c closes' settled' t tr' a v found' executor'

/-- What touches neither executors nor advertisements. -/
theorem congr (inv : Executors φ σ)
    (tran : ∀ t, (τ.tran t).map Transaction.executor = (σ.tran t).map Transaction.executor)
    (advert : τ.advert = σ.advert) (det : φ'.det = φ.det)
    (closing : ∀ c, φ'.closing = some c → φ'.settled = true →
      φ.closing = some c ∧ φ.settled = true) : Executors φ' τ := by
  refine inv.mono ?_ advert det closing
  intro t tr a found executor
  obtain ⟨tr', found', same⟩ := exists_of_map_eq (tran t) found
  exact ⟨tr', found', same.trans executor⟩

/-- A transaction is taken from its worker. -/
theorem finish (inv : Executors φ σ) (c : ClientId) (t : TranId)
    (result : Transaction → Transaction) : Executors φ (σ.finish c t result) := by
  refine inv.mono ?_ rfl rfl fun _ => And.intro
  intro t' tr a found executor
  obtain ⟨tr', found', rfl⟩ := change_eq_some_iff.mp found
  refine ⟨tr', found', ?_⟩
  split at executor
  · cases executor
  · exact executor

theorem delTran (inv : Executors φ σ) (t : TranId) (tr : Transaction) :
    Executors φ (σ.delTran t tr) := by
  refine inv.mono ?_ rfl rfl fun _ => And.intro
  intro t' tr' a found executor
  exact ⟨tr', (put_none_eq_some_iff.mp found).2, executor⟩

theorem reply (inv : Executors φ σ) (t : TranId) (tr : Transaction) (contents : Bytes) :
    Executors φ (σ.reply t tr contents) := by
  refine delTran ?_ t tr
  exact inv.congr (fun _ => rfl) rfl rfl fun _ => And.intro

theorem assign (inv : Executors φ σ) {a : AdvertId} {v : Advert} {t : TranId} (frame : Bytes)
    (advert : σ.advert a = some v) (noDet : φ.det = none) (noClosing : φ.closing = none) :
    Executors φ (σ.assign a v t frame) := by
  constructor
  · intro t' tr b found executor
    obtain ⟨tr', found', rfl⟩ := change_eq_some_iff.mp found
    split at executor
    · obtain rfl := Option.some.inj executor
      exact ⟨by simp [noDet], v, advert⟩
    · exact inv.current t' tr' b found' executor
  · simp [noClosing]

theorem closing_eq_none (phases : φ.Ok) {c : ClientId} {t : TranId}
    (busy : φ.run = some c ∨ φ.up = some t) : φ.closing = none := by
  by_contra closes
  obtain ⟨k, closes⟩ := Option.ne_none_iff_exists'.mp closes
  obtain ⟨run, up, _⟩ := phases.closing k closes
  simp [run, up] at busy

/-- A client that is being deleted waits for whatever is executed through its advertisements. -/
theorem serves (start : Inv ⟨{}, σ₀⟩) (keeps : KeepsExecutors σ₀ e) (same : SameTables σ₀ σ)
    {c : ClientId} (closes : Closes σ₀ e c) {x : Client} {t : TranId} {tr : Transaction}
    {a : AdvertId} {v : Advert} (live : σ.client c = some x) (found : σ.tran t = some tr)
    (executor : tr.executor = some a) (advert : σ.advert a = some v) (mine : v.client = c) :
    x.wait4 = some (.tran t) := by
  obtain ⟨x₀, live₀, tables⟩ := exists_of_map_eq (same.client c) live
  simp only [Client.tables, Prod.mk.injEq] at tables
  rw [same.tran] at found
  rw [← tables.2.2.2]
  exact keeps.deleted c ((start.registry.mem_clients c).mpr ⟨x₀, live₀⟩) closes x₀ live₀ t
    ((start.own.mem_transactions t).mpr ⟨tr, found⟩) tr found a executor v (same.advert ▸ advert)
    mine

theorem effect (inv : Executors φ σ) (all : Inv ⟨φ, σ⟩) (start : Inv ⟨{}, σ₀⟩)
    (trace : Trace σ₀ e ⟨{}, σ₀⟩ ⟨φ, σ⟩) (keeps : KeepsExecutors σ₀ e)
    (eff : Effect σ₀ e ⟨φ, σ⟩ ⟨φ', τ⟩) : Executors φ' τ := by
  have phases : φ.Ok := all.phases
  cases eff with
  | rest | orphan => exact ⟨inv.current, inv.rid⟩
  | connect | fill | call | write | release | resize | armHeader | next | armUpload | enqueue | park
  | block | requeue | armReturn | found | dropService =>
      exact inv.congr (fun _ => rfl) rfl rfl fun _ => And.intro
  | begin => exact inv.congr (fun _ => rfl) rfl rfl (by simp [Phase.called])
  | dropClient => exact inv.congr (fun _ => rfl) rfl rfl (by simp)
  | submit _ _ _ _ _ _ _ new =>
      refine inv.mono ?_ rfl rfl fun _ => And.intro
      intro t tr a found executor
      rcases put_eq_some_iff.mp found with ⟨_, made⟩ | ⟨_, found⟩
      · rw [← Option.some.inj made, new] at executor
        cases executor
      · exact ⟨tr, found, executor⟩
  | assignUp up _ _ _ _ _ advert _ _ _ _ noDet =>
      have noClosing := closing_eq_none (c := 0) phases (.inr up)
      refine assign (σ := σ.dismiss _) ?_ _ advert noDet noClosing
      exact inv.congr (fun _ => rfl) rfl rfl fun _ => And.intro
  | assignWork running _ _ _ _ advert _ _ _ _ _ _ _ _ noDet =>
      have noClosing := closing_eq_none (t := 0) phases (.inl running)
      refine assign (σ := σ.dismiss _) ?_ _ advert noDet noClosing
      exact inv.congr (fun _ => rfl) rfl rfl fun _ => And.intro
  | replyQueued => exact inv.reply _ _ _
  | replyWaiting => exact (inv.reply _ _ _).congr (fun _ => rfl) rfl rfl fun _ => And.intro
  | setReturn =>
      refine inv.congr (fun _ => ?_) rfl rfl fun _ => And.intro
      rw [State.setReturn_tran]
      exact change_map fun _ => rfl
  | finish => exact ⟨(inv.finish _ _ _).current, (inv.finish _ _ _).rid⟩
  | @fail _ _ c x t tr a v closing _ live serving _ _ _ _ _ same =>
      refine ⟨(inv.finish c t _).current, ?_⟩
      intro k closes _ t' tr' a' v' found executor advert mine
      obtain rfl := Option.some.inj (closing.symm.trans closes)
      obtain ⟨tr'', found', rfl⟩ := change_eq_some_iff.mp found
      split at executor
      · cases executor
      · rename_i different
        have waiting := serves start keeps same (closes_of_trace trace closing) live found' executor
          advert mine
        exact different (Wait.tran.inj (Option.some.inj (waiting.symm.trans serving)))
  | @spare _ _ c x closing _ _ live nothing same =>
      refine ⟨inv.current, ?_⟩
      intro k closes _ t tr a v found executor advert mine
      obtain rfl := Option.some.inj (closing.symm.trans closes)
      have waiting := serves start keeps same (closes_of_trace trace closing) live found executor
        advert mine
      exact nothing t tr a v waiting found executor advert mine
  | @offer _ _ c x v _ running _ _ _ _ _ =>
      have noClosing := closing_eq_none (t := 0) phases (.inl running)
      refine ⟨?_, fun k closing => by simp [noClosing] at closing⟩
      intro t tr a found executor
      obtain ⟨notDet, w, advert⟩ := inv.current t tr a found executor
      refine ⟨notDet, ?_⟩
      by_cases same : a = σ.next
      · exact ⟨v, put_eq_some_iff.mpr (.inl ⟨same, rfl⟩)⟩
      · exact ⟨w, put_eq_some_iff.mpr (.inr ⟨same, advert⟩)⟩
  | close _ quiet =>
      rcases quiet with rfl | rfl <;> exact inv.congr (fun _ => rfl) rfl rfl (by simp)
  | @detach _ _ c x a v noDet _ live mine reason advert _ _ =>
      obtain ⟨_, w, advert', owner, _⟩ := all.registry.tree c x a live mine
      refine ⟨?_, inv.rid⟩
      intro t tr b found executor
      refine ⟨?_, (inv.current t tr b found executor).2⟩
      intro same
      obtain rfl := Option.some.inj same
      rcases reason with ⟨closing, settled⟩ | ⟨_, unadvertises, same⟩
      · exact inv.rid c closing settled t tr _ w found executor advert' owner
      · obtain ⟨x₀, live₀, _⟩ := exists_of_map_eq (same.client c) live
        have found₀ : σ₀.tran t = some tr := same.tran ▸ found
        exact keeps.withdrawn c ((start.registry.mem_clients c).mpr ⟨x₀, live₀⟩) t
          ((start.own.mem_transactions t).mpr ⟨tr, found₀⟩) tr found₀ _ executor unadvertises
  | sweep | purge => exact inv.delTran _ _
  | @dropAdvert _ _ a det _ =>
      constructor
      · intro t tr b found executor
        obtain ⟨notDet, w, advert⟩ := inv.current t tr b found executor
        refine ⟨by simp, w, put_eq_some_iff.mpr (.inr ⟨?_, advert⟩)⟩
        rintro rfl
        exact notDet det
      · intro c closing settled t tr b w found executor advert
        exact inv.rid c closing settled t tr b w found executor
          (put_none_eq_some_iff.mp advert).2
  | done quiet =>
      rcases quiet with rfl | ⟨c, rfl⟩ | ⟨c, rfl⟩ <;> exact inv.congr (fun _ => rfl) rfl
        rfl (by simp)

end Executors

/-- While no advertisement in use is withdrawn, every executor is an advertisement in the tree of a
connected client. -/
theorem executor_advertised {σ : State} (reach : Reachable KeepsExecutors σ) {t : TranId}
    {tr : Transaction} {a : AdvertId} (found : σ.tran t = some tr)
    (executor : tr.executor = some a) :
    ∃ v x, σ.advert a = some v ∧ v.client ∈ σ.clients ∧ σ.client v.client = some x ∧
      a ∈ x.adverts := by
  have inv : Executors {} σ := by
    refine Reachable.induction (motive := fun κ => Executors κ.phase κ.state) ?_ ?_ reach
    · constructor <;> simp [State.start]
    · rintro σ₀ e ⟨φ, σ⟩ ⟨φ', τ⟩ reach keeps _ trace all inv eff
      exact inv.effect all (inv_of_reachable reach) trace keeps eff
  have registry := (inv_of_reachable reach).registry
  obtain ⟨_, v, advert⟩ := inv.current t tr a found executor
  obtain ⟨x, live, member⟩ := registry.offered a v advert (by simp)
  exact ⟨v, x, advert, (registry.mem_clients _).mpr ⟨x, live⟩, live, member⟩

open Scenario in
theorem executor_advertised_dispatched : ∃ σ v x, Reachable KeepsExecutors σ ∧
    σ.advert 6 = some v ∧ v.client ∈ σ.clients ∧ σ.client v.client = some x ∧ 6 ∈ x.adverts := by
  obtain ⟨σ, reach, seen⟩ := reachable_of_permitted
    ([connect, connect] ++ advertise 0 65 ++ work 0 ++ call 2 65 0 9)
    (fun σ => (σ.tran 11).bind Transaction.executor) (some 6)
    (show permitted KeepsExecutors _ _ = true by decide +kernel) (by decide +kernel)
  obtain ⟨tr, found, executor⟩ := Option.bind_eq_some_iff.mp seen
  obtain ⟨v, x, advertised⟩ := executor_advertised reach found executor
  exact ⟨σ, v, x, reach, advertised⟩

open Scenario in
/-- A worker that withdraws its service while it is executing leaves its transaction with a deleted
advertisement. -/
theorem executor_stale : ∃ σ,
    run .start ([connect, connect] ++ advertise 0 65 ++ work 0 ++ call 2 65 0 9 ++
      unadvertise 0 65) = .ok σ ∧
    Reachable anyStep σ ∧
    ((σ.tran 11).bind Transaction.executor, (σ.advert 6).isSome) = (some 6, false) :=
  reachable_of_outcome _ _ _ (by decide +kernel)

end Switchboard
end Xatmi
