import Xatmi.Switchboard.Handover
import Xatmi.Switchboard.Survival

/-!
# One peer

A switchboard with a single connection. Everything that is advertised, queued and executed is then
the peer's own, and while it sends nothing of its own waits for work. Whatever the peer sends, each
step is defined, except where it returns a result without having been given a transaction, or a
result of negative length.
-/

namespace Xatmi
namespace Switchboard

open Program Intrusive

variable {σ₀ σ τ : State} {e : Event} {φ φ' : Phase} {c : ClientId}

/-! ## What a step leaves of clients and transactions -/

/-- Nothing is read from client `c`, and no handler runs. -/
def Unread (c : ClientId) (φ : Phase) (σ : State) : Prop :=
  φ.run = none ∧ ∀ x, σ.client c = some x → x.handler = none

/-- What holds, also in the middle of a step, while client `c` is alone. -/
structure Lone (c : ClientId) (φ : Phase) (σ : State) : Prop where
  rings : Rings φ σ
  only : ∀ k x, σ.client k = some x → k = c
  offers : ∀ a v, σ.advert a = some v → v.client = c
  distinct : ∀ a b v w, σ.advert a = some v → σ.advert b = some w → v.svc = w.svc → a = b
  resting : Waiting φ σ c → Unread c φ σ
  /-- A transaction that is executed is still on the queue of its service, which the worker still
  advertises. -/
  executors : ∀ t tr a, σ.tran t = some tr → tr.executor = some a →
    ¬σ.links.Alone (.tran t) ∧ ∃ v, σ.advert a = some v ∧ v.svc = tr.svc
  serving : ∀ x t, σ.client c = some x → x.wait4 = some (.tran t) → ∃ tr, σ.tran t = some tr
  finished : φ.fin ≠ none → ∀ x, σ.client c = some x → x.wait4 = none

namespace Lone

variable (lone : Lone c φ σ)

include lone

theorem removable (all : Inv ⟨φ, σ⟩) : Removable φ σ where
  all := all
  rings := lone.rings
  executors := by
    intro t tr a found executor
    obtain ⟨_, v, advert, _⟩ := lone.executors t tr a found executor
    obtain ⟨x, live, _⟩ := all.own.owned t tr found
    refine ⟨v, advert, x, ?_⟩
    rw [lone.offers a v advert, ← lone.only _ x live]
    exact live
  serving := by
    intro k x t live serves
    obtain rfl := lone.only k x live
    exact lone.serving x t live serves
  finished := by
    intro t k x fin live waits
    obtain rfl := lone.only k x live
    cases (lone.finished (by simp [fin]) x live).symm.trans waits

theorem still_of_effect (ready : e.happening ≠ .connect) (eff : Effect σ₀ e ⟨φ, σ⟩ ⟨φ', τ⟩)
    (still : Unread c φ σ) : Unread c φ' τ := by
  obtain ⟨stopped, idle⟩ := still
  have running : ∀ {k}, φ.run ≠ some k := by simp [stopped]
  have reading : ∀ {k x handler}, σ.client k = some x → x.handler ≠ some handler := by
    intro k x handler live
    obtain rfl := lone.only k x live
    simp [idle x live]
  have changed : ∀ {key update}, (∀ x : Client, (update x).handler = x.handler) → ∀ y,
      change σ.client key update c = some y → y.handler = none := by
    intro key update same y live
    obtain ⟨x, live', rfl⟩ := change_eq_some_iff.mp live
    split
    · exact (same x).trans (idle x live')
    · exact idle x live'
  have deleted : ∀ {t tr y}, (σ.delTran t tr).client c = some y → y.handler = none := by
    intro t tr y live
    obtain ⟨x, live', rfl⟩ := Option.map_eq_some_iff.mp live
    exact idle x live'
  cases eff with
  | connect source => exact absurd source ready
  | fill live _ reads => exact absurd reads (reading live)
  | begin _ live _ reads => exact absurd reads (reading live)
  | call run | armHeader run | next run | submit run | armUpload run | assignWork run
  | rest run | block run | replyQueued run | setReturn run | armReturn run | finish run
  | found run | offer run =>
      exact absurd run running
  | write _ run => exact absurd run running
  | assignUp _ _ _ _ _ _ _ _ _ _ _ _ run => exact absurd stopped run
  | @replyWaiting _ _ x t tr _ fin live _ waits =>
      obtain rfl : tr.client = c := lone.only _ x live
      have free := lone.finished (by simp [fin]) x live
      rcases waits with own | ⟨_, any⟩
      · cases free.symm.trans own
      · cases free.symm.trans any
  | requeue | fail | detach => exact ⟨stopped, changed fun _ => rfl⟩
  | sweep | purge => exact ⟨stopped, fun _ live => deleted live⟩
  | dropClient => exact ⟨stopped, fun x live => idle x (put_none_eq_some_iff.mp live).2⟩
  | close | done => exact ⟨rfl, idle⟩
  | _ => exact ⟨stopped, idle⟩

omit lone in
/-- A client that asks for work is on no wait queue. -/
theorem unlinked (before : Lone c {} σ₀) {k : ClientId} {a : AdvertId} {v : Advert}
    (asks : Commands σ₀ e k TPTWORK) (advert : σ₀.advert a = some v) : σ₀.links.Alone (.adv a) := by
  by_contra linked
  obtain ⟨filled, received, _⟩ := asks
  obtain ⟨_, x, _, _, _, _, _, live, reading, _⟩ := received_elim received
  obtain rfl := before.only k x live
  have idle := (before.resting (.inl ⟨a, v, advert, before.offers a v advert, linked⟩)).2 x live
  cases idle.symm.trans reading

theorem resting_of_effect (before : Lone c {} σ₀) (all : Inv ⟨φ, σ⟩)
    (ready : e.happening ≠ .connect) (eff : Effect σ₀ e ⟨φ, σ⟩ ⟨φ', τ⟩) (waiting : Waiting φ' τ c) :
    Unread c φ' τ := by
  have earlier : Waiting φ σ c → Unread c φ' τ := fun waited =>
    lone.still_of_effect ready eff (lone.resting waited)
  rcases waiting with ⟨a, v, advert, mine, linked⟩ | parked
  · obtain ⟨advert', linked' | parked⟩ := lone.rings.linked_of_effect
      (fun _ _ _ asks advert _ => unlinked before asks advert) all eff advert linked
    · exact earlier (.inl ⟨a, v, advert', mine, linked'⟩)
    · exact earlier (.inr (mine ▸ parked))
  · cases eff with
    | connect | fill | begin | close | done => cases parked
    | rest _ _ live idle =>
        obtain rfl := lone.only _ _ live
        refine ⟨rfl, fun x live' => ?_⟩
        obtain rfl := Option.some.inj (live.symm.trans live')
        exact idle.1
    | _ => exact earlier (.inr parked)

theorem not_workers {s : ServiceId} {svc : Service} (service : σ.service s = some svc)
    (workers : svc.waitContainsTransactions = false) (running : φ.run ≠ none) : σ.EmptyQueue s := by
  by_contra nonempty
  obtain ⟨a, v, _, advert, _, linked⟩ := lone.rings.first_advert service workers nonempty
  exact running (lone.resting (.inl ⟨a, v, advert, lone.offers a v advert, linked⟩)).1

/-- What a client waits for after an effect is what it waited for, nothing, or something current. -/
theorem wait_of_effect (all : Inv ⟨φ, σ⟩) (ready : e.happening ≠ .connect)
    (trace : Trace σ₀ e ⟨{}, σ₀⟩ ⟨φ, σ⟩) (eff : Effect σ₀ e ⟨φ, σ⟩ ⟨φ', τ⟩) {k : ClientId}
    {y : Client} (live : τ.client k = some y) :
      ∃ x, σ.client k = some x ∧ (y.wait4 = x.wait4 ∨ y.wait4 = none ∨
      φ'.fin = none ∧ ∀ t, y.wait4 = some (.tran t) → ∃ tr, τ.tran t = some tr) := by
  have changed : ∀ {key update z}, change σ.client key update k = some z →
      (∀ x : Client, (update x).wait4 = x.wait4 ∨ (update x).wait4 = none) →
      ∃ x, σ.client k = some x ∧ (z.wait4 = x.wait4 ∨ z.wait4 = none) := by
    intro key update z live same
    obtain ⟨x, live', rfl⟩ := change_eq_some_iff.mp live
    refine ⟨x, live', ?_⟩
    split
    · exact same x
    · exact .inl rfl
  have deleted : ∀ {ρ : State} {t tr}, (∀ z, ρ.client k = some z → ∃ x, σ.client k = some x ∧
        (z.wait4 = x.wait4 ∨ z.wait4 = none)) → (ρ.delTran t tr).client k = some y →
      ∃ x, σ.client k = some x ∧ (y.wait4 = x.wait4 ∨ y.wait4 = none) := by
    intro ρ t tr earlier live
    obtain ⟨z, live', rfl⟩ := Option.map_eq_some_iff.mp live
    obtain ⟨x, live, same⟩ := earlier z live'
    refine ⟨x, live, ?_⟩
    simp only [State.bereave]
    split
    · exact .inr rfl
    · exact same
  have plain : (∃ x, σ.client k = some x ∧ (y.wait4 = x.wait4 ∨ y.wait4 = none)) →
      ∃ x, σ.client k = some x ∧ (y.wait4 = x.wait4 ∨ y.wait4 = none ∨
        φ'.fin = none ∧ ∀ t, y.wait4 = some (.tran t) → ∃ tr, τ.tran t = some tr) := by
    rintro ⟨x, live, same⟩
    exact ⟨x, live, same.imp_right .inl⟩
  cases eff with
  | connect source => exact absurd source ready
  | fill | begin | armHeader | next | submit | armUpload | requeue | armReturn | offer | detach =>
      exact plain (changed live fun _ => .inl rfl)
  | finish | fail => exact plain (changed live fun _ => .inr rfl)
  | @block _ _ k' z w _ live' _ _ awaited noFin =>
      obtain ⟨x, before, rfl⟩ := change_eq_some_iff.mp live
      refine ⟨x, before, ?_⟩
      split
      · rename_i same
        subst same
        obtain rfl := Option.some.inj (live'.symm.trans before)
        refine .inr (.inr ⟨noFin, fun t waits => ?_⟩)
        obtain rfl : w = .tran t := Option.some.inj waits
        rcases awaited with ⟨impossible, _⟩ | ⟨t', same, member⟩
        · cases impossible
        · obtain rfl := Wait.tran.inj same
          obtain ⟨tr, found, _⟩ := all.own.mine k z t live' (List.mem_append_left _ member)
          exact ⟨tr, found⟩
      · exact .inl rfl
  | assignUp _ _ offered workers nonempty _ _ _ _ _ _ _ running =>
      exact absurd (lone.not_workers offered workers running) nonempty
  | @assignWork _ _ k' _ a v _ t tr _ _ running asked _ _ _ _ _ _ _ _ _ _ found =>
      obtain ⟨x, before, rfl⟩ :=
        change_eq_some_iff.mp ((congrFun (change_change _ _ _ _) k).symm.trans live)
      refine ⟨x, before, ?_⟩
      split
      · refine .inr (.inr ⟨?_, fun t' waits => ?_⟩)
        · by_contra fin
          obtain ⟨t', fin⟩ := Option.ne_none_iff_exists'.mp fin
          obtain ⟨filled, received, _⟩ := asked
          rcases fin_of_trace trace fin with ⟨_, closing⟩ | ⟨_, _, returned | returned⟩
          · cases (all.phases.closing _ closing).1.symm.trans running
          · cases received.symm.trans returned
          · cases received.symm.trans returned
        · obtain rfl : t = t' := Wait.tran.inj (Option.some.inj waits)
          exact ⟨_, change_eq_some_iff.mpr ⟨tr, found, rfl⟩⟩
      · exact .inl rfl
  | replyQueued | replyWaiting =>
      refine plain (deleted (fun z live' => ?_) live)
      exact changed ((congrFun (change_change _ _ _ _) k).symm.trans live') fun _ => .inr rfl
  | sweep | purge => exact plain (deleted (fun z live' => ⟨z, live', .inl rfl⟩) live)
  | dropClient => exact ⟨y, (put_none_eq_some_iff.mp live).2, .inl rfl⟩
  | _ => exact ⟨y, live, .inl rfl⟩

theorem current_of_effect (all : Inv ⟨φ, σ⟩) (eff : Effect σ₀ e ⟨φ, σ⟩ ⟨φ', τ⟩) {t : TranId}
    {tr : Transaction} (found : σ.tran t = some tr) : (∃ tr', τ.tran t = some tr') ∨
      ∀ y, τ.client c = some y → y.wait4 ≠ some (.tran t) := by
  have deleted : ∀ {ρ : State} {t' tr'}, ρ.tran = σ.tran → σ.tran t' = some tr' →
      (∃ tr'', (ρ.delTran t' tr').tran t = some tr'') ∨
        ∀ y, (ρ.delTran t' tr').client c = some y → y.wait4 ≠ some (.tran t) := by
    intro ρ t' tr' tran found'
    by_cases same : t = t'
    · subst same
      right
      intro y live
      obtain ⟨x, _, rfl⟩ := Option.map_eq_some_iff.mp live
      obtain ⟨z, owner, _⟩ := all.own.owned t tr' found'
      have mine : c = tr'.client := (lone.only _ z owner).symm
      simp only [State.bereave, mine, true_or, and_true]
      split
      · simp
      · assumption
    · exact .inl ⟨tr, put_none_eq_some_iff.mpr ⟨same, tran ▸ found⟩⟩
  have changed : ∀ {key update}, ∃ tr', change σ.tran key update t = some tr' :=
    ⟨_, change_eq_some_iff.mpr ⟨tr, found, rfl⟩⟩
  cases eff with
  | submit =>
      have old := (all.waits.old (.tran t) (Option.isSome_of_eq_some found)).1
      exact .inl ⟨tr, put_eq_some_iff.mpr (.inr ⟨(old.trans (Nat.lt_succ_self _)).ne, found⟩)⟩
  | replyQueued _ _ _ _ _ _ deletable => exact deleted rfl deletable.live
  | replyWaiting _ _ _ _ deletable => exact deleted rfl deletable.live
  | sweep _ _ _ _ deletable => exact deleted rfl deletable.live
  | purge _ _ _ _ _ _ _ deletable => exact deleted rfl deletable.live
  | assignUp | assignWork | finish | fail => exact .inl changed
  | setReturn =>
      rw [State.setReturn_tran]
      exact .inl changed
  | _ => exact .inl ⟨tr, found⟩

theorem finished_of_effect (all : Inv ⟨φ, σ⟩) (ready : e.happening ≠ .connect)
    (trace : Trace σ₀ e ⟨{}, σ₀⟩ ⟨φ, σ⟩) (eff : Effect σ₀ e ⟨φ, σ⟩ ⟨φ', τ⟩) (fin : φ'.fin ≠ none)
    {y : Client} (live : τ.client c = some y) : y.wait4 = none := by
  have earlier : φ.fin ≠ none → y.wait4 = none := by
    intro fin'
    obtain ⟨x, live', same | free | ⟨noFin, _⟩⟩ := lone.wait_of_effect all ready trace eff live
    · exact same.trans (lone.finished fin' x live')
    · exact free
    · exact absurd noFin fin
  have taken : ∀ {k x update}, σ.client k = some x → (∀ x : Client, (update x).wait4 = none) →
      change σ.client k update c = some y → y.wait4 = none := by
    intro k x update worker frees live
    obtain rfl := lone.only k x worker
    obtain ⟨_, _, rfl⟩ := change_eq_some_iff.mp live
    rw [if_pos rfl, frees]
  cases eff with
  | connect | fill | begin | close | done | replyWaiting | requeue => exact absurd rfl fin
  | finish _ _ worker => exact taken worker (fun _ => rfl) live
  | fail _ _ worker => exact taken worker (fun _ => rfl) live
  | _ => exact earlier fin

theorem offers_of_effect (eff : Effect σ₀ e ⟨φ, σ⟩ ⟨φ', τ⟩) {a : AdvertId} {v : Advert}
    (advert : τ.advert a = some v) : v.client = c := by
  cases eff with
  | @offer _ _ k x w _ _ _ _ live client =>
      rcases put_eq_some_iff.mp advert with ⟨_, made⟩ | ⟨_, old⟩
      · rw [← Option.some.inj made, client]
        exact lone.only k x live
      · exact lone.offers a v old
  | dropAdvert => exact lone.offers a v (put_none_eq_some_iff.mp advert).2
  | _ => exact lone.offers a v advert

theorem distinct_of_effect (all : Inv ⟨φ, σ⟩) (eff : Effect σ₀ e ⟨φ, σ⟩ ⟨φ', τ⟩) {a b : AdvertId}
    {v w : Advert} (first : τ.advert a = some v) (second : τ.advert b = some w)
    (same : v.svc = w.svc) : a = b := by
  by_cases det : φ'.det = none
  · have registry : Registry φ' τ := (all.effect eff).registry
    obtain ⟨x, live, member⟩ := registry.offered a v first (by simp [det])
    obtain ⟨y, live', member'⟩ := registry.offered b w second (by simp [det])
    rw [lone.offers_of_effect eff first] at live
    rw [lone.offers_of_effect eff second] at live'
    obtain rfl := Option.some.inj (live.symm.trans live')
    exact registry.tree_svc c x a b v w live member member' first second same
  · cases eff with
    | offer _ noDet => exact absurd noDet det
    | dropAdvert => exact absurd rfl det
    | _ => exact lone.distinct a b v w first second same

theorem executors_of_effect (before : Lone c {} σ₀) (all : Inv ⟨φ, σ⟩)
    (eff : Effect σ₀ e ⟨φ, σ⟩ ⟨φ', τ⟩) {t : TranId} {tr : Transaction} {a : AdvertId}
    (found : τ.tran t = some tr) (executor : tr.executor = some a) :
    ¬τ.links.Alone (.tran t) ∧ ∃ v, τ.advert a = some v ∧ v.svc = tr.svc := by
  have registry : Registry φ σ := all.registry
  have linked : ∀ {tr'}, σ.tran t = some tr' → ¬σ.links.Alone (.tran t) →
      ¬τ.links.Alone (.tran t) :=
    fun found' => lone.rings.tran_linked_of_effect (fun _ _ _ asks advert _ =>
      unlinked before asks advert) all eff found' found
  have executed : ∀ {tr'}, σ.tran t = some tr' → tr'.executor = some a → tr'.svc = tr.svc →
      (∀ v, σ.advert a = some v → v.svc = tr.svc → ¬σ.links.Alone (.tran t) →
        ∃ w, τ.advert a = some w ∧ w.svc = tr.svc) →
      ¬τ.links.Alone (.tran t) ∧ ∃ v, τ.advert a = some v ∧ v.svc = tr.svc := by
    intro tr' found' executor' same kept
    obtain ⟨queued, v, advert, service⟩ := lone.executors t tr' a found' executor'
    exact ⟨linked found' queued, kept v advert (service.trans same) queued⟩
  have changed : ∀ {key update}, change σ.tran key update t = some tr →
      (∀ x, (update x).svc = x.svc ∧ ((update x).executor = x.executor ∨
        (update x).executor = none)) →
      τ.advert = σ.advert → ¬τ.links.Alone (.tran t) ∧ ∃ v, τ.advert a = some v ∧
      v.svc = tr.svc := by
    intro key update found keeps adverts
    obtain ⟨tr', found', rfl⟩ := change_eq_some_iff.mp found
    refine executed found' ?_ ?_ fun v advert service _ => ⟨v, adverts ▸ advert, service⟩
    · split at executor
      · rcases (keeps tr').2 with same | free
        · exact same.symm.trans executor
        · cases free.symm.trans executor
      · exact executor
    · split
      · exact (keeps tr').1.symm
      · rfl
  have deleted : ∀ {t'}, put σ.tran t' none t = some tr → τ.advert = σ.advert →
      ¬τ.links.Alone (.tran t) ∧ ∃ v, τ.advert a = some v ∧ v.svc = tr.svc := by
    intro t' found adverts
    exact executed (put_none_eq_some_iff.mp found).2 executor rfl
      fun v advert service _ => ⟨v, adverts ▸ advert, service⟩
  cases eff with
  | submit _ _ _ _ _ _ _ new =>
      rcases put_eq_some_iff.mp found with ⟨_, made⟩ | ⟨_, found'⟩
      · rw [← Option.some.inj made, new] at executor
        cases executor
      · exact executed found' executor rfl fun v advert service _ => ⟨v, advert, service⟩
  | assignUp _ _ offered workers nonempty _ _ _ _ _ _ _ running =>
      exact absurd (lone.not_workers offered workers running) nonempty
  | @assignWork _ _ k _ b v _ t' tr₀ _ _ running _ _ _ _ advert queued nonempty first _ _
        _ found₀ =>
      obtain ⟨tr', found', rfl⟩ := change_eq_some_iff.mp found
      by_cases same : t = t'
      · subst same
        rw [if_pos rfl] at executor ⊢
        obtain rfl := Option.some.inj executor
        obtain rfl := Option.some.inj (found₀.symm.trans found')
        obtain ⟨svc, service, _⟩ := queued
        obtain ⟨at_, front⟩ := lone.rings.first_entry service nonempty
        rw [first] at at_ front
        obtain ⟨tr'', found'', home⟩ := Option.map_eq_some_iff.mp at_
        obtain rfl := Option.some.inj (found₀.symm.trans found'')
        exact ⟨linked found₀ front, v, advert, (Node.head.inj home).symm⟩
      · rw [if_neg same] at executor
        exact executed found' executor (by rw [if_neg same]) fun v advert service _ =>
          ⟨v, advert, service⟩
  | setReturn =>
      rw [State.setReturn_tran] at found
      exact changed found (fun _ => ⟨rfl, .inl rfl⟩) rfl
  | finish | fail => exact changed found (fun _ => ⟨rfl, .inr rfl⟩) rfl
  | replyQueued | replyWaiting | sweep | purge => exact deleted found rfl
  | offer =>
      refine executed found executor rfl fun v advert service _ => ⟨v, ?_, service⟩
      have old := (all.waits.old (.adv a) (Option.isSome_of_eq_some advert)).1
      exact put_eq_some_iff.mpr (.inr ⟨old.ne, advert⟩)
  | @dropAdvert _ _ b det _ others =>
      refine executed found executor rfl fun v advert service queued => ⟨v, ?_, service⟩
      refine put_none_eq_some_iff.mpr ⟨?_, advert⟩
      rintro rfl
      rcases lone.rings.threaded.node (.tran t) _ (State.home_tran found) with alone |
        ⟨⟨svc, current⟩, _⟩
      · exact queued alone
      · obtain ⟨b, w, different, advert', same⟩ := others v svc advert (service ▸ current)
        exact different (lone.distinct b a w v advert' advert same)
  | _ => exact executed found executor rfl fun v advert service _ => ⟨v, advert, service⟩

theorem effect (before : Lone c {} σ₀) (all : Inv ⟨φ, σ⟩) (ready : e.happening ≠ .connect)
    (trace : Trace σ₀ e ⟨{}, σ₀⟩ ⟨φ, σ⟩) (eff : Effect σ₀ e ⟨φ, σ⟩ ⟨φ', τ⟩) : Lone c φ' τ where
  rings := lone.rings.effect (fun _ _ _ asks advert _ => unlinked before asks advert) all eff
  only := by
    intro k y live
    obtain ⟨x, live', _⟩ := lone.wait_of_effect all ready trace eff live
    exact lone.only k x live'
  offers _ _ := lone.offers_of_effect eff
  distinct _ _ _ _ := lone.distinct_of_effect all eff
  resting := lone.resting_of_effect before all ready eff
  executors _ _ _ := lone.executors_of_effect before all eff
  serving := by
    intro y t live serves
    obtain ⟨x, live', same | free | ⟨_, current⟩⟩ := lone.wait_of_effect all ready trace eff live
    · obtain ⟨tr, found⟩ := lone.serving x t live' (same.symm.trans serves)
      exact (lone.current_of_effect all eff found).resolve_right fun gone => gone y live serves
    · cases free.symm.trans serves
    · exact current t serves
  finished fin _ := lone.finished_of_effect all ready trace eff fin

omit lone in
theorem trace (before : Lone c {} σ₀) (inv : Inv ⟨{}, σ₀⟩) (ready : e.happening ≠ .connect)
    {κ : Conf} (trace : Trace σ₀ e ⟨{}, σ₀⟩ κ) : Lone c κ.phase κ.state := by
  induction trace with
  | refl => exact before
  | tail sofar eff ih => exact ih.effect before (inv.trace sofar) ready sofar eff

omit lone in
/-- The handlers can count on what they do of a peer that is alone. -/
theorem steady (lone : Lone c {} σ) (inv : Inv ⟨{}, σ⟩) (ready : e.happening ≠ .connect) :
    Steady σ e where
  removable trace := (lone.trace inv ready trace).removable (inv.trace trace)
  workers := by
    intro φ μ a v x trace running advert linked _
    have now := lone.trace inv ready trace
    exact absurd (now.resting (.inl ⟨a, v, advert, now.offers a v advert, linked⟩)).1 running
  waiters := by
    intro φ μ t k x trace fin live waits
    have now := lone.trace inv ready trace
    obtain rfl := now.only k x live
    cases (now.finished (by simp [fin]) x live).symm.trans waits

end Lone

/-! ## Data on its way -/

theorem upload_of_effect (eff : Effect σ₀ e ⟨φ, σ⟩ ⟨φ', τ⟩) {y : Client}
    (live : τ.client c = some y) (reading : y.handler = some .sendToWorker) :
    (∃ x, σ.client c = some x ∧ x.handler = some .sendToWorker ∧ x.input = y.input) ∨
      ∃ t tr, φ.up = some t ∧ σ.tran t = some tr ∧ y.input = some tr.data ∧ τ.tran = σ.tran ∧
        τ.service = σ.service := by
  have changed : ∀ {key update z}, change σ.client key update c = some z →
      z.handler = some .sendToWorker → (∀ x : Client, (update x).handler = some .sendToWorker →
        x.handler = some .sendToWorker ∧ x.input = (update x).input) →
      ∃ x, σ.client c = some x ∧ x.handler = some .sendToWorker ∧ x.input = z.input := by
    intro key update z live reading same
    obtain ⟨x, live', rfl⟩ := change_eq_some_iff.mp live
    refine ⟨x, live', ?_⟩
    by_cases here : c = key
    · rw [if_pos here] at reading ⊢
      exact same x reading
    · rw [if_neg here] at reading ⊢
      exact ⟨reading, rfl⟩
  cases eff with
  | connect =>
      obtain ⟨x, added, rfl⟩ := change_eq_some_iff.mp live
      by_cases new : c = σ₀.next
      · rw [if_pos new] at reading
        cases reading
      · rw [if_neg new] at reading ⊢
        exact .inl ⟨x, ((put_eq_some_iff.mp added).resolve_left fun made => new made.1).2,
          reading, rfl⟩
  | fill | submit | block | requeue | finish | fail | offer | detach =>
      exact .inl (changed live reading fun _ reading => ⟨reading, rfl⟩)
  | begin | next => exact .inl (changed live reading (by simp))
  | armHeader _ _ _ _ _ _ fixed =>
      refine .inl (changed live reading fun _ reading => ?_)
      rw [Option.some.inj reading] at fixed
      cases fixed
  | armReturn => exact .inl (changed live reading (by simp))
  | @armUpload _ _ k _ _ _ _ _ up _ _ found =>
      obtain ⟨x, live', rfl⟩ := change_eq_some_iff.mp live
      by_cases here : c = k
      · rw [if_pos here]
        exact .inr ⟨_, _, up, found, rfl, rfl, rfl⟩
      · rw [if_neg here] at reading ⊢
        exact .inl ⟨x, live', reading, rfl⟩
  | assignUp | assignWork =>
      exact .inl (changed ((congrFun (change_change _ _ _ _) c).symm.trans live) reading (by simp))
  | replyQueued | replyWaiting =>
      obtain ⟨x, answered, rfl⟩ := Option.map_eq_some_iff.mp live
      exact .inl (changed (z := x) ((congrFun (change_change _ _ _ _) c).symm.trans answered)
        reading (by simp))
  | sweep | purge =>
      obtain ⟨x, live', rfl⟩ := Option.map_eq_some_iff.mp live
      exact .inl ⟨x, live', reading, rfl⟩
  | dropClient => exact .inl ⟨y, (put_none_eq_some_iff.mp live).2, reading, rfl⟩
  | _ => exact .inl ⟨y, live, reading, rfl⟩

theorem unsent_of_trace {κ : Conf} {filled : Bytes} {y : Client} (inv : Inv ⟨{}, σ₀⟩)
    (received : Received σ₀ e c .svrunadvertise filled) (trace : Trace σ₀ e ⟨{}, σ₀⟩ κ)
    (live : κ.state.client c = some y) :
    y.handler ≠ some .sendToWorker ∧ y.handler ≠ some .part2 := by
  induction trace generalizing y with
  | refl =>
      obtain ⟨_, x, _, _, _, _, _, live', reading, _⟩ := received_elim received
      obtain rfl := Option.some.inj (live'.symm.trans live)
      simp [reading]
  | tail sofar eff ih =>
      constructor
      · intro reading
        rcases upload_of_effect eff live reading with ⟨x, live', reading', _⟩ | ⟨t, _, up, _⟩
        · exact (ih live').1 reading'
        · obtain ⟨_, _, called | sent⟩ := received_of_up sofar up
          · cases received.symm.trans called
          · cases received.symm.trans sent
      · intro reading
        cases Outcome.of_effect (inv.trace sofar) eff live with
        | kept live' intake =>
            simp only [Client.intake, Prod.mk.injEq] at intake
            exact (ih live').2 (intake.1.symm.trans reading)
        | armed _ fixed => exact fixed reading
        | input live' _ _ partly =>
            rcases partly with ⟨handler, _⟩ | idle
            · exact (ih live').2 (handler.symm.trans reading)
            · cases idle.symm.trans reading
        | returning _ _ returned => cases received.symm.trans returned

/-- What the peer is sending data for is still there. -/
structure Attended (c : ClientId) (φ : Phase) (σ : State) : Prop where
  request : ∀ x t tr, σ.client c = some x → x.handler = some .sendToWorker → φ.closing ≠ some c →
    σ.tran t = some tr → x.input = some tr.data → ∃ svc, σ.service tr.svc = some svc
  up : ∀ t tr, φ.up = some t → σ.tran t = some tr → ∃ svc, σ.service tr.svc = some svc
  result : ∀ x b, σ.client c = some x → x.handler = some .part2 → φ.closing ≠ some c →
    x.input = some b →
    ∃ t tr, σ.tran t = some tr ∧ tr.data = b

namespace Attended

variable (attended : Attended c φ σ) (before : Lone c {} σ₀) (start : Inv ⟨{}, σ₀⟩)

include before start

theorem unorphaned {x : Client} {s : ServiceId} (trace : Trace σ₀ e ⟨{}, σ₀⟩ ⟨φ, σ⟩)
    (stays : φ.closing ≠ some c) (live : σ.client c = some x)
    (sends : x.handler = some .sendToWorker ∨ x.handler = some .part2) :
    φ.orphan ≠ some s := by
  intro orphan
  obtain ⟨a, det⟩ := (start.trace trace).phases.orphan s orphan
  rcases det_of_trace trace det with ⟨k, closing⟩ | ⟨k, _, filled, received, _⟩
  · obtain ⟨y, live'⟩ := (start.registry.mem_clients k).mp (closes_of_trace trace closing).connected
    obtain rfl := before.only k y live'
    exact stays closing
  · obtain ⟨_, y, _, _, _, _, _, live', _⟩ := received_elim received
    obtain rfl := before.only k y live'
    obtain ⟨request, result⟩ := unsent_of_trace start received trace live
    exact sends.elim request result

include attended

theorem request_of_effect (trace : Trace σ₀ e ⟨{}, σ₀⟩ ⟨φ, σ⟩) (eff : Effect σ₀ e ⟨φ, σ⟩ ⟨φ', τ⟩)
    {y : Client} {t : TranId} {tr : Transaction} (live : τ.client c = some y)
    (reading : y.handler = some .sendToWorker) (stays : φ'.closing ≠ some c)
    (found : τ.tran t = some tr) (into : y.input = some tr.data) :
    ∃ svc, τ.service tr.svc = some svc := by
  have all : Inv ⟨φ, σ⟩ := start.trace trace
  have stays' := closing_of_effect eff live stays
  rcases upload_of_effect eff live reading with ⟨x, live', reading', same⟩ |
    ⟨t', tr', up, found', into', tran, services⟩
  · have old : tr.data ≠ σ.next := (all.buffers.old c x tr.data live' (same.trans into)).ne
    obtain ⟨tr', found', service, data | new⟩ | ⟨new, _⟩ := source_of_effect eff found
    · obtain ⟨svc, current⟩ :=
        attended.request x t tr' live' reading' stays' found' (by rw [same, into, data])
      rw [service] at current
      exact (service_of_effect all eff current).resolve_right
        (unorphaned before start trace stays' live' (.inl reading'))
    · exact absurd new old
    · exact absurd new old
  · rw [tran] at found
    have data : tr.data = tr'.data := Option.some.inj (into.symm.trans into')
    obtain rfl := all.buffers.apart t t' tr tr' found found' data
    rw [services]
    exact attended.up t tr up found

theorem up_of_effect (trace : Trace σ₀ e ⟨{}, σ₀⟩ ⟨φ, σ⟩) (eff : Effect σ₀ e ⟨φ, σ⟩ ⟨φ', τ⟩)
    {t : TranId} {tr : Transaction} (up : φ'.up = some t) (found : τ.tran t = some tr) :
    ∃ svc, τ.service tr.svc = some svc := by
  have all : Inv ⟨φ, σ⟩ := start.trace trace
  have earlier : φ.up = some t → ∃ svc, τ.service tr.svc = some svc := by
    intro up
    have unorphaned : ∀ s, φ.orphan ≠ some s := by
      intro s orphan
      obtain ⟨a, det⟩ := all.phases.orphan s orphan
      rcases det_of_trace trace det with ⟨k, closing⟩ | ⟨k, _, filled, received, _⟩
      · cases (all.phases.closing k closing).2.1.symm.trans up
      · obtain ⟨_, _, called | sent⟩ := received_of_up trace up
        · cases received.symm.trans called
        · cases received.symm.trans sent
    obtain ⟨tr', found', service, _⟩ | ⟨_, made⟩ := source_of_effect eff found
    · obtain ⟨svc, current⟩ := attended.up t tr' up found'
      rw [service] at current
      exact (service_of_effect all eff current).resolve_right (unorphaned _)
    · exact made
  cases eff with
  | @begin _ k x handler _ _ _ received live _ reading =>
      simp only [Phase.called] at up
      split at up
      · rename_i uploads
        subst uploads
        obtain ⟨_, y, _, _, _, _, _, live', _⟩ := received_elim received
        obtain rfl := before.only k y live'
        obtain ⟨t', tr', uploading, _, into⟩ := all.dispatches.upload k x live reading (by simp)
        obtain rfl := Option.some.inj (uploading.last.symm.trans up)
        obtain rfl := Option.some.inj (uploading.found.symm.trans found)
        exact attended.request x t' tr' live reading (by simp) found into
      · cases up
  | @submit _ _ _ _ _ tr₀ _ _ _ _ _ service =>
      obtain rfl := Option.some.inj up
      obtain rfl : tr₀ = tr := Option.some.inj ((if_pos rfl).symm.trans found)
      exact ⟨_, service⟩
  | connect | fill | armUpload | enqueue | assignUp | close | done => cases up
  | _ => exact earlier up

theorem result_of_effect (lone : Lone c φ σ) (lent : Lent φ σ) (trace : Trace σ₀ e ⟨{}, σ₀⟩ ⟨φ, σ⟩)
    (eff : Effect σ₀ e ⟨φ, σ⟩ ⟨φ', τ⟩) {y : Client} {b : BufId} (live : τ.client c = some y)
    (reading : y.handler = some .part2) (stays : φ'.closing ≠ some c) (into : y.input = some b) :
    ∃ t tr, τ.tran t = some tr ∧ tr.data = b := by
  have all : Inv ⟨φ, σ⟩ := start.trace trace
  have stays' := closing_of_effect eff live stays
  have earlier : ∀ {x}, σ.client c = some x → x.handler = some .part2 → x.input = some b →
      ∃ t tr, τ.tran t = some tr ∧ tr.data = b := by
    intro x live' reading' into'
    obtain ⟨t, tr, found, data⟩ := attended.result x b live' reading' stays' into'
    have busy : ∀ {k z}, σ.client k = some z → ¬z.Idle := by
      intro k z owner idle
      obtain rfl := lone.only k z owner
      obtain rfl := Option.some.inj (live'.symm.trans owner)
      cases reading'.symm.trans idle.1
    have stopped : ∀ {k z}, σ.client k = some z → φ.run ≠ some k := by
      intro k z running run
      obtain rfl := lone.only k z running
      exact lent.stopped k x live' run reading'
    have changed : ∀ {key update}, (∀ x : Transaction, (update x).data = x.data) →
        ∃ t tr, change σ.tran key update t = some tr ∧ tr.data = b := by
      intro key update same
      refine ⟨t, _, change_eq_some_iff.mpr ⟨tr, found, rfl⟩, ?_⟩
      split
      · exact (same tr).trans data
      · exact data
    cases eff with
    | submit run _ worker => exact absurd run (stopped worker)
    | assignUp | assignWork | finish | fail => exact changed fun _ => rfl
    | setReturn run worker => exact absurd run (stopped worker)
    | replyQueued _ _ _ _ owner idle => exact absurd idle (busy owner)
    | replyWaiting _ owner idle => exact absurd idle (busy owner)
    | sweep orphan =>
        exact absurd orphan (unorphaned before start trace stays' live' (.inr reading'))
    | @purge _ _ k z _ _ closing _ _ _ owner =>
        obtain rfl := lone.only k z owner
        exact absurd closing stays'
    | _ => exact ⟨t, tr, found, data⟩
  cases Outcome.of_effect all eff live with
  | kept live' intake =>
      simp only [Client.intake, Prod.mk.injEq] at intake
      exact earlier live' (intake.1.symm.trans reading) (intake.2.1.symm.trans into)
  | armed _ fixed => exact absurd reading fixed
  | input live' _ _ partly =>
      rcases partly with ⟨handler, input, _⟩ | idle
      · exact earlier live' (handler.symm.trans reading) (input.symm.trans into)
      · cases idle.symm.trans reading
  | returning _ _ _ _ _ found into' => exact ⟨_, _, found, Option.some.inj (into'.symm.trans into)⟩

omit attended in
theorem trace (attended : Attended c {} σ₀) (lent : Lent {} σ₀) (ready : e.happening ≠ .connect)
    {κ : Conf} (trace : Trace σ₀ e ⟨{}, σ₀⟩ κ) : Attended c κ.phase κ.state := by
  induction trace with
  | refl => exact attended
  | tail sofar eff ih =>
      exact ⟨fun _ _ _ => ih.request_of_effect before start sofar eff,
        fun _ _ => ih.up_of_effect before start sofar eff,
        fun _ _ => ih.result_of_effect before start (before.trace start ready sofar)
          (lent.trace start sofar) sofar eff⟩

end Attended

/-! ## Whole runs -/

/-- A connection is accepted only when there is no other. -/
def OneAtATime (σ : State) (e : Event) : Prop :=
  match e.happening with
  | .connect => σ.clients = []
  | .ready _ _ => True

instance (σ : State) : (e : Event) → Decidable (OneAtATime σ e)
  | ⟨_, .connect⟩ => inferInstanceAs (Decidable (σ.clients = []))
  | ⟨_, .ready _ _⟩ => inferInstanceAs (Decidable True)

theorem OneAtATime.deserted (alone : OneAtATime σ e) (source : e.happening = .connect) :
    σ.clients = [] := by
  simpa only [OneAtATime, source] using alone

/-- A peer that connects when nobody else is connected is alone: nothing is left of those before
it. -/
theorem Lone.connect (rings : Rings {} σ) (inv : Inv ⟨{}, σ⟩) (deserted : σ.clients = []) :
    Lone σ.next {} (σ.addClient.nextCommand σ.next) := by
  obtain ⟨nobody, unadvertised, finished⟩ := inv.deserted deserted
  have only : ∀ k x, (σ.addClient.nextCommand σ.next).client k = some x → k = σ.next ∧
      x.wait4 = none := by
    intro k x live
    obtain ⟨y, added, rfl⟩ := change_eq_some_iff.mp live
    rcases put_eq_some_iff.mp added with ⟨rfl, made⟩ | ⟨_, live'⟩
    · rw [if_pos rfl, ← Option.some.inj made]
      exact ⟨rfl, rfl⟩
    · cases (nobody k).symm.trans live'
  refine ⟨rings.congr rfl rfl rfl (fun _ => rfl) rfl, fun k x live => (only k x live).1, ?_, ?_, ?_,
    ?_, ?_, ?_⟩
  · intro a v advert
    cases (unadvertised a).symm.trans advert
  · intro a _ v _ advert
    cases (unadvertised a).symm.trans advert
  · rintro (⟨a, v, advert, _⟩ | parked)
    · cases (unadvertised a).symm.trans advert
    · cases parked
  · intro t tr _ found
    cases (finished t).symm.trans found
  · intro x t live waits
    cases (only _ x live).2.symm.trans waits
  · exact fun fin => absurd rfl fin

theorem lone_of_reachable (reach : Reachable OneAtATime σ) :
    ∃ c, Lone c {} σ ∧ Attended c {} σ := by
  induction reach with
  | start =>
      refine ⟨0, ⟨.start, ?_, ?_, ?_, ?_, ?_, ?_, ?_⟩, ⟨?_, ?_, ?_⟩⟩ <;> simp [State.start, Waiting]
  | @next σ τ e reach alone done ih =>
      have inv := inv_of_reachable reach
      obtain ⟨c, lone, attended⟩ := ih
      by_cases source : e.happening = .connect
      · obtain rfl := Except.ok.inj ((step_connect source).symm.trans done)
        refine ⟨σ.next, .connect lone.rings inv (alone.deserted source), ?_⟩
        have reading : ∀ x, (σ.addClient.nextCommand σ.next).client σ.next = some x →
            x.handler = some .command := by
          intro x live
          obtain ⟨_, _, rfl⟩ := change_eq_some_iff.mp live
          rw [if_pos rfl]
        refine ⟨fun x _ _ live sends => ?_, fun _ _ up => ?_, fun x _ live sends => ?_⟩
        · cases (reading x live).symm.trans sends
        · cases up
        · cases (reading x live).symm.trans sends
      · have trace := step_trace inv done
        exact ⟨c, lone.trace inv source trace, attended.trace lone inv (lent_of_reachable reach)
          source trace⟩

/-- What the peer sends goes into memory that is there, and what it sends it for is there too. -/
theorem Lone.spared (lone : Lone c {} σ) (attended : Attended c {} σ) (inv : Inv ⟨{}, σ⟩)
    (expected : ∀ c x header, Received σ e c .svrreturn header → σ.client c = some x →
      (∃ t, x.wait4 = some (.tran t)) ∧ 0 ≤ returnLength header) : ¬Fatal σ e := by
  intro fatal
  cases fatal with
  | unexpected received live idle =>
      obtain ⟨⟨t, serves⟩, _⟩ := expected _ _ _ received live
      exact idle t serves
  | negative received refused =>
      obtain ⟨_, _, _, _, _, _, _, live, _⟩ := received_elim received
      exact absurd (expected _ _ _ received live).2 (Int.not_le.mpr refused)
  | @freed k _ x b _ live into gone =>
      obtain rfl := lone.only k x live
      have owned : ∀ {t tr}, σ.tran t = some tr → tr.data ≠ b := by
        rintro t tr found rfl
        obtain ⟨contents, room⟩ := inv.buffers.data t tr found
        cases gone.symm.trans room
      by_cases returns : x.handler = some .part2
      · obtain ⟨t, tr, found, data⟩ := attended.result x b live returns (by simp) into
        exact owned found data
      · rcases reads_or_borrows inv live (by simp) into fun here => absurd here returns with
          reads | ⟨t, tr, borrows⟩
        · obtain ⟨contents, room⟩ := (inv.buffers.reading k x b live reads).1.room
          cases gone.symm.trans room
        · exact owned borrows.found (Option.some.inj (borrows.into.symm.trans into))
  | @withdrawn k x _ t tr received live last found gone =>
      obtain rfl := lone.only k x live
      obtain ⟨_, y, _, _, _, _, _, live', reading, _⟩ := received_elim received
      obtain rfl := Option.some.inj (live.symm.trans live')
      obtain ⟨t', tr', uploading, _, into⟩ := inv.dispatches.upload k x live reading (by simp)
      obtain rfl := Option.some.inj (last.symm.trans uploading.last)
      obtain rfl := Option.some.inj (found.symm.trans uploading.found)
      obtain ⟨svc, service⟩ := attended.request x t tr live reading (by simp) found into
      cases gone.symm.trans service

/-- With at most one connection at a time the switchboard survives whatever the peer sends, except a
result when `wait4` of the peer refers to no transaction, and a result of negative length. -/
theorem lone_peer_survives (reach : Reachable OneAtATime σ) :
    (∃ τ, step σ e = .ok τ) ↔ ∀ c x header, Received σ e c .svrreturn header → σ.client c = some x →
      (∃ t, x.wait4 = some (.tran t)) ∧ 0 ≤ returnLength header := by
  have inv := inv_of_reachable reach
  constructor
  · rintro ⟨τ, done⟩ c x header received live
    constructor
    · by_contra idle
      exact (Fatal.unexpected received live (not_exists.mp idle)).dies inv done
    · by_contra negative
      exact (Fatal.negative received (Int.not_le.mp negative)).dies inv done
  · intro expected
    by_cases source : e.happening = .connect
    · exact ⟨_, step_connect source⟩
    · obtain ⟨c, lone, attended⟩ := lone_of_reachable reach
      exact (lone.steady inv source).survives (lent_of_reachable reach)
        (lone.spared attended inv expected)

open Scenario in
/-- A peer asks for work, is given its own request and returns a result; the second result is not
expected. -/
theorem lone_peer_survives_own : ∃ σ τ, Reachable OneAtATime σ ∧ Reachable OneAtATime τ ∧
    (∃ ρ, step σ (receive 0 ([2] ++ longBytes 0 ++ longBytes 0) 0) = .ok ρ) ∧
    ¬∃ ρ, step τ (receive 0 ([2] ++ longBytes 0 ++ longBytes 0) 0) = .ok ρ := by
  let header : Bytes := [2] ++ longBytes 0 ++ longBytes 0
  obtain ⟨σ, reach, given⟩ := reachable_of_permitted
    ([connect] ++ advertise 0 65 ++ call 0 65 0 9 ++ work 0 ++ [receive 0 [TPTRETN] 0])
    (fun σ => decide (received σ (receive 0 header 0) = some (0, .svrreturn, header) ∧
      ∃ x ∈ σ.client 0, x.serves.isSome)) true
    (show permitted OneAtATime _ _ = true by decide +kernel) (by decide +kernel)
  obtain ⟨τ, reach', idle⟩ := reachable_of_permitted
    ([connect] ++ advertise 0 65 ++ call 0 65 0 9 ++ work 0 ++ giveBack 0 2
      0 ++ [receive 0 [TPTRETN] 0])
    (fun σ => decide (received σ (receive 0 header 0) = some (0, .svrreturn, header) ∧
      ∃ x ∈ σ.client 0, x.serves = none)) true
    (show permitted OneAtATime _ _ = true by decide +kernel) (by decide +kernel)
  obtain ⟨received, x, live, serves⟩ := of_decide_eq_true given
  obtain ⟨received', y, live', unassigned⟩ := of_decide_eq_true idle
  refine ⟨σ, τ, reach, reach', (lone_peer_survives reach).mpr ?_, fun survived => ?_⟩
  · rintro c z filled here there
    obtain ⟨rfl, rfl⟩ : 0 = c ∧ header = filled := by simpa using received.symm.trans here
    obtain rfl := Option.some.inj (live.symm.trans there)
    obtain ⟨t, serves⟩ := Option.isSome_iff_exists.mp serves
    exact ⟨⟨t, Client.serves_eq_some_iff.mp serves⟩, by decide +kernel⟩
  · obtain ⟨⟨t, waits⟩, _⟩ := (lone_peer_survives reach').mp survived 0 y header received' live'
    cases unassigned.symm.trans (Client.serves_eq_some_iff.mpr waits)

end Switchboard
end Xatmi
