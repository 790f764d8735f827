import Xatmi.Switchboard.Teardown

/-!
# Handlers as sequences of effects

Every handler that returns is a sequence of effects, from the phase in which it is called to the
phase in which nothing is in anybody's hands. So the invariant holds in every reachable memory.
-/

namespace Xatmi
namespace Switchboard

open Program Relation

variable {σ₀ : State} {e : Event}

/-! ## Looking for work -/

namespace State

/-- The first entry of the queue behind advertisement `a` is transaction `t`. -/
def First (σ : State) (a : AdvertId) (t : TranId) : Prop :=
  ∃ v svc, σ.advert a = some v ∧ σ.service v.svc = some svc ∧ σ.links.p2 (.head v.svc) = .tran t

/-- Transactions are waiting for what advertisement `a` offers. -/
def Waits (σ : State) (a : AdvertId) : Prop :=
  ∃ v, σ.advert a = some v ∧ σ.Flagged v.svc ∧ ¬σ.EmptyQueue v.svc

/-- What `find_earliest` keeps of its choice so far and an advertisement with work. -/
def Prefers (σ : State) (p : AdvertId) : Option AdvertId → Option AdvertId → Prop
  | none, choice => choice = some p
  | some q, choice => ∃ t t' tr tr', σ.First q t ∧ σ.tran t = some tr ∧ σ.First p t' ∧
      σ.tran t' = some tr' ∧
      choice = if tr.arrival.before tr'.arrival then some p else some q

/-- One visit of `find_earliest`. -/
def Visits (σ : State) (earliest : Option AdvertId) (p : AdvertId) (choice : Option AdvertId) :
    Prop :=
  (∃ v svc, σ.advert p = some v ∧ σ.service v.svc = some svc) ∧
    (σ.Waits p ∧ σ.Prefers p earliest choice ∨ ¬σ.Waits p ∧ choice = earliest)

end State

theorem firstTran_ok_iff {a : AdvertId} {t : TranId} {σ σ' : State} :
    firstTran a σ = .ok (t, σ') ↔ σ.First a t ∧ σ' = σ := by
  simp only [firstTran, bind_ok_iff, readAdvert_ok_iff, qfirst_ok_iff, nodeTran_ok_iff, State.First,
    and_assoc, exists_and_left, exists_eq_left]
  constructor
  · rintro ⟨v, found, ⟨svc, service⟩, first, rfl⟩
    exact ⟨⟨v, found, svc, service, first⟩, rfl⟩
  · rintro ⟨⟨v, found, svc, service, first⟩, rfl⟩
    exact ⟨v, found, ⟨svc, service⟩, first, rfl⟩

theorem findEarliest_ok_iff {earliest choice : Option AdvertId} {p : AdvertId} {σ σ' : State} :
    findEarliest earliest p σ = .ok (choice, σ') ↔ σ.Visits earliest p choice ∧ σ' = σ := by
  simp only [findEarliest, bind_ok_iff, readAdvert_ok_iff, readService_ok_iff, qisempty_ok_iff,
    and_assoc, exists_and_left, exists_eq_left, State.Visits]
  have waits : ∀ {v svc}, σ.advert p = some v → σ.service v.svc = some svc →
      (σ.Waits p ↔ (svc.waitContainsTransactions &&
        !decide (σ.links.p1 (.head v.svc) = .head v.svc)) = true) := by
    intro v svc found service
    simp [State.Waits, found, State.Flagged, service, State.EmptyQueue]
  constructor
  · rintro ⟨v, found, svc, service, _, rest⟩
    refine ⟨⟨v, found, svc, service⟩, ?_⟩
    split at rest
    · rename_i work
      cases earliest with
      | none =>
          obtain ⟨rfl, rfl⟩ := pure_ok_iff.mp rest
          exact ⟨.inl ⟨(waits found service).mpr work, rfl⟩, rfl⟩
      | some q =>
          simp only [bind_ok_iff, firstTran_ok_iff, readTran_ok_iff, and_assoc, exists_and_left,
            exists_eq_left] at rest
          obtain ⟨t, first, tr, current, t', second, tr', current', rest⟩ := rest
          have last : choice = (if tr.arrival.before tr'.arrival then some p else some q) ∧
              σ' = σ := by
            split at rest <;> rename_i sooner
            · rw [if_pos sooner]
              exact pure_ok_iff.mp rest
            · rw [if_neg sooner]
              exact pure_ok_iff.mp rest
          exact ⟨.inl ⟨(waits found service).mpr work, t, t', tr, tr', first, current, second,
            current', last.1⟩, last.2⟩
    · rename_i none
      obtain ⟨rfl, rfl⟩ := pure_ok_iff.mp rest
      exact ⟨.inr ⟨fun work => none ((waits found service).mp work), rfl⟩, rfl⟩
  · rintro ⟨⟨v, found, svc, service⟩, outcome, rfl⟩
    refine ⟨v, found, svc, service, ⟨svc, service⟩, ?_⟩
    rcases outcome with ⟨work, prefers⟩ | ⟨none, rfl⟩
    · rw [if_pos ((waits found service).mp work)]
      cases earliest with
      | none => exact pure_ok_iff.mpr ⟨prefers, rfl⟩
      | some q =>
          obtain ⟨t, t', tr, tr', first, current, second, current', same⟩ := prefers
          simp only [bind_ok_iff, firstTran_ok_iff, readTran_ok_iff, and_assoc, exists_and_left,
            exists_eq_left]
          refine ⟨t, first, tr, current, t', second, tr', current', ?_⟩
          split <;> simp_all [pure_ok_iff]
    · rw [if_neg fun work => none ((waits found service).mpr work)]
      exact pure_ok_iff.mpr ⟨rfl, rfl⟩

/-- The outcome of a walk of `find_earliest` over a tree. -/
inductive State.Chooses (σ : State) : Option AdvertId → List AdvertId → Option AdvertId → Prop
  | nil (earliest : Option AdvertId) : Chooses σ earliest [] earliest
  | cons {earliest middle choice : Option AdvertId} {p : AdvertId} {adverts : List AdvertId} :
      σ.Visits earliest p middle → Chooses σ middle adverts choice →
      Chooses σ earliest (p :: adverts) choice

theorem foldlM_findEarliest_ok_iff {adverts : List AdvertId} {earliest choice : Option AdvertId}
    {σ σ' : State} :
    adverts.foldlM findEarliest earliest σ = .ok (choice, σ') ↔
      σ.Chooses earliest adverts choice ∧ σ' = σ := by
  induction adverts generalizing earliest with
  | nil =>
      rw [List.foldlM_nil, pure_ok_iff]
      constructor
      · rintro ⟨rfl, rfl⟩
        exact ⟨.nil _, rfl⟩
      · rintro ⟨⟨⟩, rfl⟩
        exact ⟨rfl, rfl⟩
  | cons p adverts ih =>
      rw [List.foldlM_cons]
      simp only [bind_ok_iff, findEarliest_ok_iff, and_assoc, exists_and_left, exists_eq_left, ih]
      constructor
      · rintro ⟨middle, visits, chooses, rfl⟩
        exact ⟨.cons visits chooses, rfl⟩
      · rintro ⟨⟨⟩, rfl⟩
        exact ⟨_, ‹_›, ‹_›, rfl⟩

namespace State.Chooses

variable {σ : State} {adverts : List AdvertId} {earliest choice : Option AdvertId}

theorem waits (chooses : σ.Chooses earliest adverts choice) {a : AdvertId}
    (chosen : choice = some a) :
    earliest = some a ∨ a ∈ adverts ∧ σ.Waits a := by
  induction chooses with
  | nil => exact .inl chosen
  | @cons earliest middle choice p adverts visits _ ih =>
      rcases ih chosen with rfl | ⟨member, work⟩
      · obtain ⟨_, ⟨work, prefers⟩ | ⟨_, same⟩⟩ := visits
        · cases earliest with
          | none =>
              obtain rfl := Option.some.inj prefers
              exact .inr ⟨List.mem_cons_self, work⟩
          | some q =>
              obtain ⟨_, _, _, _, _, _, _, _, same⟩ := prefers
              split at same
              · obtain rfl := Option.some.inj same
                exact .inr ⟨List.mem_cons_self, work⟩
              · exact .inl same.symm
        · exact .inl same.symm
      · exact .inr ⟨List.mem_cons_of_mem _ member, work⟩

theorem idle (chooses : σ.Chooses earliest adverts choice) (nothing : choice = none) :
    earliest = none ∧ ∀ p ∈ adverts, ¬σ.Waits p := by
  induction chooses with
  | nil => exact ⟨nothing, by simp⟩
  | @cons earliest middle choice p adverts visits _ ih =>
      obtain ⟨rfl, rest⟩ := ih nothing
      obtain ⟨_, ⟨_, prefers⟩ | ⟨none, same⟩⟩ := visits
      · cases earliest with
        | none => cases prefers
        | some q =>
            obtain ⟨_, _, _, _, _, _, _, _, same⟩ := prefers
            split at same <;> cases same
      · refine ⟨same.symm, ?_⟩
        intro p member
        rcases List.mem_cons.mp member with rfl | member
        · exact none
        · exact rest p member

end State.Chooses

namespace SameTables

variable {σ τ : State}

theorem refl (σ : State) : SameTables σ σ :=
  ⟨rfl, rfl, rfl, rfl, rfl, rfl, fun _ => rfl⟩

theorem freeBuf (same : SameTables σ τ) (b : BufId) : SameTables σ (τ.freeBuf b) :=
  ⟨same.services, same.service, same.advert, same.tran, same.links, same.sent, same.client⟩

theorem tree (same : SameTables σ τ) (c : ClientId) :
    (τ.client c).map Client.adverts = (σ.client c).map Client.adverts := by
  simpa [Option.map_map, Function.comp_def, Client.tables] using
    congrArg (Option.map Prod.fst) (same.client c)

theorem first_iff (same : SameTables σ τ) {a : AdvertId} {t : TranId} :
    τ.First a t ↔ σ.First a t := by
  simp only [State.First, same.advert, same.service, same.links]

theorem visits_iff (same : SameTables σ τ) {earliest choice : Option AdvertId} {p : AdvertId} :
    τ.Visits earliest p choice ↔ σ.Visits earliest p choice := by
  cases earliest <;>
    simp only [State.Visits, State.Waits, State.Flagged, State.EmptyQueue, State.Prefers,
      same.first_iff, same.advert, same.service, same.links, same.tran]

theorem chooses_iff (same : SameTables σ τ) {earliest choice : Option AdvertId}
    {adverts : List AdvertId} :
    τ.Chooses earliest adverts choice ↔ σ.Chooses earliest adverts choice := by
  constructor <;> intro chooses <;> induction chooses with
  | nil => exact .nil _
  | cons visits _ ih => first
      | exact .cons (same.visits_iff.mp visits) ih
      | exact .cons (same.visits_iff.mpr visits) ih

theorem fndService_eq (same : SameTables σ τ) (name : Bytes) :
    τ.fndService name = σ.fndService name := by
  simp only [State.fndService, same.services, same.service]

theorem fndAdvertisement_eq (same : SameTables σ τ) (c : ClientId) (name : Bytes) :
    τ.fndAdvertisement c name = σ.fndAdvertisement c name := by
  have name' : ∀ a, τ.advertName a = σ.advertName a := by
    simp only [State.advertName, same.advert, same.service, implies_true]
  have tree := same.tree c
  simp only [State.fndAdvertisement, same.fndService_eq, same.service, name']
  cases live : τ.client c <;> cases live' : σ.client c <;> simp_all

end SameTables

/-! ## `svrservice.c` -/

theorem addToWaitq_ok_iff {p : AdvertId} {u : PUnit} {σ σ' : State} :
    addToWaitq p σ = .ok (u, σ') ↔
      ∃ v, σ.advert p = some v ∧ σ.Linkable v.svc (.adv p) ∧ σ' = σ.park v.svc p := by
  simp only [addToWaitq, bind_ok_iff, readAdvert_ok_iff, modifyService_ok_iff, qappend_ok_iff,
    and_assoc, exists_and_left, exists_eq_left, exists_const, State.Linkable,
    WaitQueues.nodeLive_mapService]
  constructor
  · rintro ⟨v, found, _, head, self, last, second, rfl⟩
    exact ⟨v, found, head, self, last, second, rfl⟩
  · rintro ⟨v, found, head, self, last, second, rfl⟩
    exact ⟨v, found, Option.isSome_iff_exists.mp head, head, self, last, second, rfl⟩

theorem forM_addToWaitq_trace {c : ClientId} {x : Client} {adverts : List AdvertId} {u : PUnit}
    {σ σ' : State} (inv : Inv ⟨{ parked := some c }, σ⟩) (live : σ.client c = some x)
    (mine : ∀ a ∈ adverts, a ∈ x.adverts) (nodup : adverts.Nodup)
    (idle : ∀ a ∈ adverts, ¬σ.Waits a) (asked : Commands σ₀ e c TPTWORK)
    (untouched : ∀ a ∈ adverts, ∀ v, σ.advert a = some v → σ₀.advert a = some v ∧
      σ.links.p1 (.adv a) = σ₀.links.p1 (.adv a) ∧ σ.links.p2 (.adv a) = σ₀.links.p2 (.adv a))
    (done : adverts.forM addToWaitq σ = .ok (u, σ')) :
    Trace σ₀ e ⟨{ parked := some c }, σ⟩ ⟨{ parked := some c }, σ'⟩ := by
  induction adverts generalizing σ with
  | nil =>
      obtain ⟨_, rfl⟩ := pure_ok_iff.mp done
      exact .refl
  | cons a adverts ih =>
      obtain ⟨_, τ, visited, rest⟩ := bind_ok_iff.mp done
      obtain ⟨v, advert, linkable, rfl⟩ := addToWaitq_ok_iff.mp visited
      obtain ⟨fresh, nodup⟩ := List.nodup_cons.mp nodup
      have member : a ∈ x.adverts := mine a List.mem_cons_self
      have fits : σ.Flagged v.svc → σ.EmptyQueue v.svc := by
        intro flag
        by_contra nonempty
        exact idle a List.mem_cons_self ⟨v, advert, flag, nonempty⟩
      have parks : Effect σ₀ e ⟨{ parked := some c }, σ⟩
          ⟨{ parked := some c }, σ.park v.svc a⟩ :=
        .park rfl live member advert fits linkable asked (untouched a List.mem_cons_self v advert)
      have different : ∀ {b w}, b ∈ adverts → σ.advert b = some w → w.svc ≠ v.svc := by
        intro b w inside found same
        have := inv.registry.tree_svc c x b a w v live (mine b (List.mem_cons_of_mem a inside))
          member found advert same
        exact fresh (this ▸ inside)
      refine .head parks (ih (inv.effect parks) live
        (fun b inside => mine b (List.mem_cons_of_mem a inside)) nodup ?_ ?_ rest)
      · rintro b inside ⟨w, found, ⟨svc, service, flag⟩, nonempty⟩
        have found : σ.advert b = some w := found
        have different := different inside found
        refine idle b (List.mem_cons_of_mem a inside) ⟨w, found, ⟨svc, ?_, flag⟩, ?_⟩
        · simpa [State.park, State.link, State.mapService, change, different] using service
        · rwa [State.EmptyQueue, inv.waits.park_head fits linkable different] at nonempty
      · intro b inside w found
        have found : σ.advert b = some w := found
        have same := inv.waits.park_far advert fits linkable (n := .adv b)
          fun near => different inside found (near w found)
        rw [same.1, same.2]
        exact untouched b (List.mem_cons_of_mem a inside) w found

/-- What `svrservice` does for client `c`: a transaction is handed over, or the client put on the
wait queues of its services. -/
theorem svrservice_ok {env : Env} {c : ClientId} {b : BufId} {u : PUnit} {σ σ' : State}
    (done : svrservice env c b σ = .ok (u, σ')) :
    ∃ contents x, σ.buf b = some contents ∧ σ.client c = some x ∧
      ((σ.freeBuf b).Chooses none (env.walk x.adverts) none ∧
          (env.walk x.adverts).forM addToWaitq (σ.freeBuf b) = .ok (u, σ') ∨
        ∃ a t v y tr svc data, (σ.freeBuf b).Chooses none (env.walk x.adverts) (some a) ∧
          a ∈ x.adverts ∧ σ.advert a = some v ∧ σ.Flagged v.svc ∧ ¬σ.EmptyQueue v.svc ∧
          σ.links.p2 (.head v.svc) = .tran t ∧ σ.client v.client = some y ∧ y.Idle ∧
          (σ.freeBuf b).Dismissable (env.walk y.adverts) ∧ σ.tran t = some tr ∧
          σ.service tr.svc = some svc ∧ (σ.freeBuf b).buf tr.data = some data ∧
          σ' = ((σ.freeBuf b).dismiss (env.walk y.adverts)).assign a v t
            (workFrame v tr svc.svcname data)) := by
  simp only [svrservice, bind_ok_iff, tpfree_ok_iff, readClient_ok_iff,
    foldlM_findEarliest_ok_iff, and_assoc, exists_and_left, exists_eq_left, exists_const] at done
  obtain ⟨⟨contents, room⟩, x, live, choice, chooses, rest⟩ := done
  refine ⟨contents, x, room, live, ?_⟩
  cases choice with
  | none => exact .inl ⟨chooses, rest⟩
  | some a =>
      simp only [bind_ok_iff, firstTran_ok_iff, sendToServer_ok_iff, and_assoc, exists_and_left,
        exists_eq_left] at rest
      obtain ⟨t, first, v, advert, y, worker, idle, dismissable, tr, found, svc, service,
        data, room', rfl⟩ := rest
      obtain impossible | ⟨member, w, advert', flag, nonempty⟩ := chooses.waits rfl
      · cases impossible
      obtain rfl := Option.some.inj (advert.symm.trans advert')
      obtain ⟨w, _, advert', _, front⟩ := first
      obtain rfl := Option.some.inj (advert.symm.trans advert')
      have mine : a ∈ x.adverts := (env.walk_perm x.adverts).mem_iff.mp member
      exact .inr ⟨a, t, v, y, tr, svc, data, chooses, mine, advert, flag, nonempty, front,
        worker, idle, dismissable, found, service, room', rfl⟩

theorem svrservice_trace {c : ClientId} {b : BufId} {u : PUnit} {σ σ' : State}
    (inv : Inv ⟨{ run := some c, held := some b }, σ⟩) (asked : Commands σ₀ e c TPTWORK)
    (same : SameTables σ₀ σ) (idle : ∃ x, σ.client c = some x ∧ x.Idle)
    (fresh : ∀ a k t, .dispatched a k t ∈ σ.log → .dispatched a k t ∈ σ₀.log)
    (done : svrservice e.env c b σ = .ok (u, σ')) :
    Trace σ₀ e ⟨{ run := some c, held := some b }, σ⟩ ⟨{}, σ'⟩ := by
  obtain ⟨contents, x, room, live, outcome⟩ := svrservice_ok done
  obtain ⟨y, live', idle⟩ := idle
  obtain rfl := Option.some.inj (live.symm.trans live')
  have released : Effect σ₀ e ⟨{ run := some c, held := some b }, σ⟩
      ⟨{ run := some c }, σ.freeBuf b⟩ :=
    .release rfl room
  have same := same.freeBuf b
  refine .head released ?_
  rcases outcome with ⟨chooses, rest⟩ | ⟨a, t, v, y, tr, svc, data, chooses, mine, advert,
    flag, nonempty, front, worker, idle', dismissable, found, service, room', rfl⟩
  · have resting : Effect σ₀ e ⟨{ run := some c }, σ.freeBuf b⟩
        ⟨{ parked := some c }, σ.freeBuf b⟩ :=
      .rest rfl asked live idle rfl
    have perm := e.env.walk_perm x.adverts
    have parked : Trace σ₀ e _ _ :=
      forM_addToWaitq_trace ((inv.effect released).effect resting) live
        (fun a member => perm.mem_iff.mp member)
        (perm.nodup_iff.mpr (inv.registry.tree_nodup c x live)) (chooses.idle rfl).2 asked
        (fun a _ v advert => by rw [← same.advert, ← same.links]; exact ⟨advert, rfl, rfl⟩) rest
    exact .head resting (parked.tail (.done (.inr (.inr ⟨c, rfl⟩))))
  · obtain ⟨x₀, live₀, tree⟩ := exists_of_map_eq (same.tree c) live
    have picked : Picks e.env σ₀ c a t := by
      refine ⟨x₀, live₀, foldlM_findEarliest_ok_iff.mpr ⟨?_, rfl⟩, firstTran_ok_iff.mpr ⟨?_, rfl⟩⟩
      · rw [tree]
        exact same.chooses_iff.mp chooses
      · obtain ⟨svc', flagged, _⟩ := flag
        exact same.first_iff.mp ⟨v, svc', advert, flagged, front⟩
    exact .head (.assignWork rfl asked picked live mine advert flag nonempty front worker idle'
      dismissable found room' rfl fresh ⟨svc, service, rfl⟩)
      (.single (.done (.inr (.inl ⟨c, rfl⟩))))

/-! ## `svracall.c` -/

theorem return_trace {c : ClientId} {σ : State} : Trace σ₀ e ⟨{ run := some c }, σ⟩ ⟨{}, σ⟩ :=
  .single (.done (.inr (.inl ⟨c, rfl⟩)))

theorem answer_trace {c : ClientId} {x : Client} {σ : State} {bytes : Bytes}
    (live : σ.client c = some x) (idle : x.Idle) :
    Trace σ₀ e ⟨{ run := some c }, σ⟩ ⟨{}, (σ.write c bytes).nextCommand c⟩ :=
  .head (.write live rfl) (.head (.next rfl live idle) return_trace)

/-- What `send_to_worker` does for client `c`, whose last request is `t`. -/
theorem sendToWorker_ok {env : Env} {c : ClientId} {b : BufId} {t : TranId} {x : Client} {u : PUnit}
    {σ σ' : State} (live : σ.client c = some x) (last : x.requests.getLast? = some t)
    (done : sendToWorker env c b σ = .ok (u, σ')) :
    x.Idle ∧ ∃ tr svc, σ.tran t = some tr ∧ σ.service tr.svc = some svc ∧
      ((∃ a v w contents, svc.waitContainsTransactions = false ∧ ¬σ.EmptyQueue tr.svc ∧
          σ.links.p2 (.head tr.svc) = .adv a ∧ σ.advert a = some v ∧
          (σ.nextCommand c).client v.client = some w ∧ w.Idle ∧
          (σ.nextCommand c).Dismissable (env.walk w.adverts) ∧
          (σ.nextCommand c).buf tr.data = some contents ∧
          σ' = ((σ.nextCommand c).dismiss (env.walk w.adverts)).assign a v t
            (workFrame v tr svc.svcname contents)) ∨
        (σ.EmptyQueue tr.svc ∨ σ.Flagged tr.svc) ∧ (σ.nextCommand c).Linkable tr.svc (.tran t) ∧
          σ' = (σ.nextCommand c).enqueue tr.svc t) := by
  simp only [sendToWorker, bind_ok_iff, svrNextCommand_ok_iff, readClient_ok_iff, and_assoc,
    exists_and_left, exists_eq_left, exists_const] at done
  obtain ⟨⟨y, live', idle⟩, z, armed, rest⟩ := done
  obtain rfl := Option.some.inj (live.symm.trans live')
  have requests : z.requests.getLast? = some t := by
    obtain ⟨y, seen, rfl⟩ := change_eq_some_iff.mp armed
    obtain rfl := Option.some.inj (live.symm.trans seen)
    simpa using last
  simp only [requests, bind_ok_iff, readTran_ok_iff, readService_ok_iff, qisempty_ok_iff,
    and_assoc, exists_and_left, exists_eq_left] at rest
  obtain ⟨tr, found, svc, service, _, rest⟩ := rest
  refine ⟨idle, tr, svc, found, service, ?_⟩
  split at rest
  · rename_i waiting
    simp only [bind_ok_iff, qfirst_ok_iff, nodeAdvert_ok_iff, sendToServer_ok_iff, and_assoc,
      exists_and_left, exists_eq_left] at rest
    obtain ⟨_, a, first, v, advert, w, worker, idle', dismissable, tr', found', svc', service',
      contents, data, rfl⟩ := rest
    obtain rfl := Option.some.inj (found.symm.trans found')
    obtain rfl := Option.some.inj (service.symm.trans service')
    simp only [Bool.and_eq_true, Bool.not_eq_eq_eq_not, Bool.not_true, decide_eq_false_iff_not]
      at waiting
    exact .inl ⟨a, v, w, contents, waiting.2, waiting.1, first, advert, worker, idle',
      dismissable, data, rfl⟩
  · rename_i alone
    simp only [bind_ok_iff, modifyService_ok_iff, qappend_ok_iff, and_assoc, exists_and_left,
      exists_eq_left, exists_const, State.Linkable, WaitQueues.nodeLive_mapService] at rest
    obtain ⟨_, head, self, end_, second, rfl⟩ := rest
    refine .inr ⟨?_, ⟨head, self, end_, second⟩, rfl⟩
    by_cases empty : (σ.nextCommand c).EmptyQueue tr.svc
    · exact .inl empty
    · right
      refine ⟨svc, service, ?_⟩
      by_contra flag
      exact alone (by simpa [State.EmptyQueue, flag] using empty)

theorem sendToWorker_trace {c : ClientId} {b : BufId} {t : TranId} {x : Client} {u : PUnit}
    {σ σ' : State} (live : σ.client c = some x) (last : x.requests.getLast? = some t)
    (done : sendToWorker e.env c b σ = .ok (u, σ')) :
    Trace σ₀ e ⟨{ run := some c, up := some t }, σ⟩ ⟨{}, σ'⟩ := by
  obtain ⟨idle, tr, svc, found, service, outcome⟩ := sendToWorker_ok live last done
  refine .head (.next rfl live idle) ?_
  rcases outcome with ⟨a, v, w, contents, workers, nonempty, first, advert, worker, idle',
    dismissable, data, rfl⟩ | ⟨fits, linkable, rfl⟩
  · exact .head (.assignUp rfl found service workers nonempty first advert worker idle'
      dismissable data rfl (by simp) rfl) return_trace
  · exact .head (.enqueue rfl found fits linkable rfl) return_trace

theorem newTransaction_ok_iff {env : Env} {c : ClientId} {flags : BitVec 64}
    {svc : Option ServiceId} {len : Int} {t : Option TranId} {σ σ' : State} :
    newTransaction env c flags svc len σ = .ok (t, σ') ↔
      (svc = none ∨ len < 0) ∧ t = none ∧ σ' = σ ∨
        ∃ s, svc = some s ∧ 0 ≤ len ∧ t = some (σ.next + 1) ∧
          σ' = (σ.allocBuf (List.replicate len.toNat 0)).addTran
            { client := c, svc := s, arrival := env.arrival, cd := env.cd, data := σ.next,
              flags } := by
  cases svc with
  | none => simp [newTransaction, pure_ok_iff]
  | some s =>
      simp only [newTransaction, bind_ok_iff, tpalloc_ok_iff]
      constructor
      · rintro ⟨_, _, ⟨short, rfl, rfl⟩ | ⟨fits, rfl, rfl⟩, rest⟩
        · obtain ⟨rfl, rfl⟩ := pure_ok_iff.mp rest
          exact .inl ⟨.inr short, rfl, rfl⟩
        · simp only [bind_ok_iff, get_ok_iff, set_ok_iff, pure_ok_iff] at rest
          obtain ⟨_, _, ⟨rfl, rfl⟩, _, _, rfl, rfl, rfl⟩ := rest
          exact .inr ⟨s, rfl, fits, rfl, rfl⟩
      · rintro (⟨impossible | short, rfl, rfl⟩ | ⟨_, same, fits, rfl, rfl⟩)
        · cases impossible
        · exact ⟨none, _, .inl ⟨short, rfl, rfl⟩, pure_ok_iff.mpr ⟨rfl, rfl⟩⟩
        · obtain rfl := Option.some.inj same
          refine ⟨some σ.next, _, .inr ⟨fits, rfl, rfl⟩, ?_⟩
          simp only [bind_ok_iff, get_ok_iff, set_ok_iff, pure_ok_iff]
          exact ⟨_, _, ⟨rfl, rfl⟩, ⟨⟩, _, rfl, rfl, rfl⟩

theorem accept_trace {c : ClientId} {b : BufId} {x : Client} {svc : Service} {tr : Transaction}
    {len : Nat} {bytes contents : Bytes} {u : PUnit} {σ σ' : State}
    (inv : Inv ⟨{ run := some c, held := some b }, σ⟩) (live : σ.client c = some x)
    (idle : x.Idle) (service : σ.service tr.svc = some svc) (client : tr.client = c)
    (data : tr.data = σ.next) (new : tr.executor = none) (cd : tr.cd = e.env.cd)
    (asked : ∃ filled, Received σ₀ e c .svracall filled) (short : len < 2 ^ 31)
    (freed : ∃ old, (σ.submit tr len).buf b = some old)
    (room : ((σ.submit tr len).freeBuf b).buf tr.data = some contents)
    (outcome :
      contents ≠ [] ∧
          σ' = (((σ.submit tr len).freeBuf b).write c bytes).arm c .sendToWorker tr.data ∨
        contents = [] ∧ sendToWorker e.env c tr.data ((((σ.submit tr len).freeBuf b).write c
          bytes).observe (.handled c .sendToWorker [])) = .ok (u, σ')) :
    Trace σ₀ e ⟨{ run := some c, held := some b }, σ⟩ ⟨{}, σ'⟩ := by
  obtain ⟨old, freed⟩ := freed
  have live' : (σ.submit tr len).client c =
      some { x with requests := x.requests ++ [σ.next + 1] } :=
    change_eq_some_iff.mpr ⟨x, live, by simp [client]⟩
  have found : (σ.submit tr len).tran (σ.next + 1) = some tr :=
    put_eq_some_iff.mpr (.inl ⟨rfl, rfl⟩)
  have submits : Effect σ₀ e ⟨{ run := some c, held := some b }, σ⟩
      ⟨{ run := some c, held := some b, up := some (σ.next + 1) }, σ.submit tr len⟩ :=
    .submit rfl rfl live idle service client data new cd rfl asked short
  have writes : Effect σ₀ e ⟨{ run := some c, up := some (σ.next + 1) },
      (σ.submit tr len).freeBuf b⟩ ⟨{ run := some c, up := some (σ.next + 1) },
        ((σ.submit tr len).freeBuf b).write c bytes⟩ :=
    .write live' rfl
  refine .head submits (.head (.release rfl freed) (.head writes ?_))
  rcases outcome with ⟨nonempty, rfl⟩ | ⟨_, called⟩
  · refine .single (.armUpload rfl rfl live' idle found client room nonempty ?_)
    intro k y live'' into
    obtain ⟨z, before, rfl⟩ := change_eq_some_iff.mp live''
    have into : z.input = some σ.next := by
      rw [← data, ← into]
      split <;> rfl
    exact inv.buffers.unread_next before into
  · exact .head (.call rfl (.inr (.inl rfl))) (sendToWorker_trace live' (by simp) called)

/-- The transaction that `svracall` makes for client `c`. -/
def request (env : Env) (c : ClientId) (s : ServiceId) (flags : BitVec 64) (data : BufId) :
    Transaction :=
  { client := c, svc := s, arrival := env.arrival, cd := env.cd, data, flags }

/-- What `svracall` does for client `c`: the call is refused, or its transaction is made and the
data read or, if there is none, the transaction passed on. -/
theorem svracall_ok {env : Env} {c : ClientId} {b : BufId} {u : PUnit} {σ σ' : State}
    (done : svracall env c b σ = .ok (u, σ')) :
    ∃ contents x, σ.buf b = some contents ∧ σ.client c = some x ∧ x.Idle ∧
      ((σ.fndService (contents.take XATMI_SERVICE_NAME_LENGTH) = none ∨
            (tolong (contents.drop XATMI_SERVICE_NAME_LENGTH)).toInt < 0) ∧
          σ' =
            ((σ.freeBuf b).write c ((-1) :: shortBytes (BitVec.ofNat 16 TPENOENT))).nextCommand c ∨
        ∃ (s : ServiceId) (tr : Transaction) (len : Nat) (data : Bytes),
          σ.fndService (contents.take XATMI_SERVICE_NAME_LENGTH) = some s ∧
          (tolong (contents.drop XATMI_SERVICE_NAME_LENGTH)).toInt = len ∧
          tr = request env c s (tolong (contents.drop (XATMI_SERVICE_NAME_LENGTH + IOLONG)))
          σ.next ∧ (∃ old, (σ.submit tr len).buf b = some old) ∧
          ((σ.submit tr len).freeBuf b).buf tr.data = some data ∧
          (data ≠ [] ∧ σ' = (((σ.submit tr len).freeBuf b).write c (0 :: shortBytes tr.cd)).arm c
              .sendToWorker tr.data ∨
            data = [] ∧ sendToWorker env c tr.data ((((σ.submit tr len).freeBuf b).write c
              (0 :: shortBytes tr.cd)).observe (.handled c .sendToWorker [])) = .ok (u, σ'))) := by
  simp only [svracall, bind_ok_iff, readBuf_ok_iff, get_ok_iff, newTransaction_ok_iff,
    tpfree_ok_iff, and_assoc, exists_and_left, exists_eq_left, exists_const] at done
  obtain ⟨contents, room, t, τ, made, freed, rest⟩ := done
  rcases made with ⟨refused, rfl, rfl⟩ | ⟨s, service, fits, rfl, rfl⟩
  · simp only [bind_ok_iff, svrwriteb_ok_iff, svrwrites_ok_iff, svrNextCommand_ok_iff, and_assoc,
      exists_and_left, exists_eq_left, exists_const, State.write_write, State.write_client] at rest
    obtain ⟨_, _, ⟨x, live, idle⟩, rfl⟩ := rest
    exact ⟨contents, x, room, live, idle, .inl ⟨refused, rfl⟩⟩
  · simp only [bind_ok_iff, modifyClient_ok_iff, readTran_ok_iff, svrwriteb_ok_iff,
      svrwrites_ok_iff, svriowait_ok_iff, and_assoc, exists_and_left, exists_eq_left, exists_const,
      State.write_write, State.write_client] at rest
    obtain ⟨⟨x, live⟩, tr, found, _, _, y, live', idle, data, room', outcome⟩ := rest
    have made := put_eq_some_iff.mp found
    obtain ⟨_, made⟩ | ⟨different, _⟩ := made
    · obtain rfl := Option.some.inj made
      obtain ⟨z, seen, rfl⟩ := change_eq_some_iff.mp live'
      obtain rfl := Option.some.inj (live.symm.trans seen)
      simp only [↓reduceIte] at idle
      exact ⟨contents, x, room, live, idle, .inr ⟨s, _, _, data, service,
        (Int.toNat_of_nonneg fits).symm, rfl, freed, room', outcome⟩⟩
    · exact absurd rfl different

theorem svracall_trace {c : ClientId} {b : BufId} {u : PUnit} {σ σ' : State}
    (inv : Inv ⟨{ run := some c, held := some b }, σ⟩)
    (asked : ∃ filled, Received σ₀ e c .svracall filled)
    (done : svracall e.env c b σ = .ok (u, σ')) :
    Trace σ₀ e ⟨{ run := some c, held := some b }, σ⟩ ⟨{}, σ'⟩ := by
  obtain ⟨contents, x, room, live, idle, ⟨_, rfl⟩ | ⟨s, tr, len, data, service, length, rfl,
    freed, room', outcome⟩⟩ := svracall_ok done
  · exact .head (.release rfl room) (answer_trace live idle)
  · obtain ⟨svc, current, _⟩ := inv.registry.fndService_eq_some_iff.mp service
    have short := tolong_lt (contents.drop XATMI_SERVICE_NAME_LENGTH)
    exact accept_trace inv live idle current rfl rfl rfl rfl asked (by omega) freed room' outcome

/-! ## `svrgetrply.c` -/

theorem senderrno_ok_iff {c : ClientId} {errno : Nat} {u : PUnit} {σ σ' : State} :
    senderrno c errno σ = .ok (u, σ') ↔
      (∃ x, σ.client c = some x ∧ x.Idle) ∧
        σ' =
          (σ.write c (TPERRNO.setWidth 8 :: shortBytes (BitVec.ofNat 16 errno))).nextCommand c := by
  simp only [senderrno, bind_ok_iff, svrwriteb_ok_iff, svrwrites_ok_iff, svrNextCommand_ok_iff,
    and_assoc, exists_and_left, exists_eq_left, exists_const, State.write_write,
    State.write_client, List.singleton_append]
  constructor
  · rintro ⟨_, _, ready, rfl⟩
    exact ⟨ready, rfl⟩
  · rintro ⟨⟨x, live, idle⟩, rfl⟩
    exact ⟨⟨x, live⟩, ⟨x, live⟩, ⟨x, live, idle⟩, rfl⟩

theorem mem_of_findCd {σ : State} {queue : List TranId} {cd : BitVec 16} {t : TranId}
    (found : σ.findCd queue cd = some t) : t ∈ queue :=
  List.mem_of_find?_eq_some found

/-- What `svrgetrply` does for client `c`: a reply is sent, an error is reported, or the client has
to wait. -/
theorem svrgetrply_ok {c : ClientId} {b : BufId} {u : PUnit} {σ σ' : State}
    (done : svrgetrply c b σ = .ok (u, σ')) :
    ∃ contents x, σ.buf b = some contents ∧ σ.client c = some x ∧
      let any := tolong (contents.drop IOSHORT) &&& TPGETANY ≠ 0
      let cd := toshort contents
      ((∃ t tr data y, t ∈ x.replies ∧
          (if any then x.replies.head? else σ.findCd x.replies cd) = some t ∧
          (σ.freeBuf b).Deletable t tr ∧ (σ.freeBuf b).buf tr.data = some data ∧
          σ.client tr.client = some y ∧ y.Idle ∧ σ' = (σ.freeBuf b).reply t tr data) ∨
        (if any then x.replies = [] else σ.findCd x.replies cd = none) ∧
          ((∃ errno, (errno = TPEBADDESC ∧ ¬any ∧ σ.findCd x.requests cd = none ∨
          errno = TPEBLOCK) ∧
              (∃ y, σ.client c = some y ∧ y.Idle) ∧
              σ' = ((σ.freeBuf b).write c
                (TPERRNO.setWidth 8 :: shortBytes (BitVec.ofNat 16 errno))).nextCommand c) ∨
            ∃ w, (any ∧ w = .any ∨ ¬any ∧ ∃ t, w = .tran t ∧ t ∈ x.requests ∧
                σ.findCd x.requests cd = some t) ∧
              σ' = (σ.freeBuf b).block c w)) := by
  simp only [svrgetrply, bind_ok_iff, readBuf_ok_iff, tpfree_ok_iff, readClient_ok_iff, get_ok_iff,
    and_assoc, exists_and_left, exists_eq_left, exists_const] at done
  obtain ⟨contents, room, _, x, live, rest⟩ := done
  refine ⟨contents, x, room, live, ?_⟩
  have search : ∀ queue, (σ.freeBuf b).findCd queue (toshort contents) = σ.findCd queue
      (toshort contents) :=
    fun _ => rfl
  by_cases any : tolong (contents.drop IOSHORT) &&& TPGETANY = 0
  · simp only [any, ↓reduceIte, search, ne_eq, not_true_eq_false, not_false_eq_true, true_and,
      false_and, false_or] at rest ⊢
    cases reply : σ.findCd x.replies (toshort contents) with
    | some t =>
        simp only [reply] at rest
        obtain ⟨tr, data, y, deletable, room', owner, idle', rfl⟩ := sndReply_ok_iff.mp rest
        exact .inl ⟨t, tr, data, y, mem_of_findCd reply, rfl, deletable, room', owner, idle', rfl⟩
    | none =>
        simp only [reply] at rest
        refine .inr ⟨rfl, ?_⟩
        cases awaited : σ.findCd x.requests (toshort contents) with
        | none =>
            simp only [awaited, Option.map_none] at rest
            obtain ⟨idle, rfl⟩ := senderrno_ok_iff.mp rest
            exact .inl ⟨_, .inl ⟨rfl, rfl⟩, idle, rfl⟩
        | some t =>
            simp only [awaited, Option.map_some] at rest
            split at rest
            · obtain ⟨idle, rfl⟩ := senderrno_ok_iff.mp rest
              exact .inl ⟨_, .inr rfl, idle, rfl⟩
            · obtain ⟨_, rfl⟩ := modifyClient_ok_iff.mp rest
              exact .inr ⟨_, ⟨t, rfl, mem_of_findCd awaited, rfl⟩, rfl⟩
  · simp only [any, ↓reduceIte, ne_eq, not_false_eq_true, not_true_eq_false, true_and, false_and,
      and_false, or_false, false_or] at rest ⊢
    cases reply : x.replies.head? with
    | some t =>
        simp only [reply] at rest
        obtain ⟨tr, data, y, deletable, room', owner, idle', rfl⟩ := sndReply_ok_iff.mp rest
        exact .inl ⟨t, tr, data, y, List.mem_of_head? reply, rfl, deletable, room', owner,
          idle', rfl⟩
    | none =>
        simp only [reply] at rest
        refine .inr ⟨List.head?_eq_none_iff.mp reply, ?_⟩
        split at rest
        · obtain ⟨idle, rfl⟩ := senderrno_ok_iff.mp rest
          exact .inl ⟨_, rfl, idle, rfl⟩
        · obtain ⟨_, rfl⟩ := modifyClient_ok_iff.mp rest
          exact .inr ⟨_, rfl, rfl⟩

theorem svrgetrply_trace {c : ClientId} {b : BufId} {u : PUnit} {σ σ' : State}
    (idle : ∃ x, σ.client c = some x ∧ x.Idle)
    (asked : ∃ filled, Received σ₀ e c .svrgetrply filled)
    (done : svrgetrply c b σ = .ok (u, σ')) :
    Trace σ₀ e ⟨{ run := some c, held := some b }, σ⟩ ⟨{}, σ'⟩ := by
  obtain ⟨contents, x, room, live, outcome⟩ := svrgetrply_ok done
  obtain ⟨y, live', idle⟩ := idle
  obtain rfl := Option.some.inj (live.symm.trans live')
  refine .head (.release rfl room) ?_
  rcases outcome with ⟨t, tr, data, y, queued, _, deletable, room', owner, idle', rfl⟩ |
    ⟨none_, ⟨errno, _, _, rfl⟩ | ⟨w, awaited, rfl⟩⟩
  · exact .head (.replyQueued rfl asked live queued owner idle' deletable room') return_trace
  · exact answer_trace live idle
  · refine .head (.block rfl live idle asked ?_ rfl) (.single (.done (.inl rfl)))
    rcases awaited with ⟨any, rfl⟩ | ⟨_, t, rfl, request, _⟩
    · rw [if_pos any] at none_
      exact .inl ⟨rfl, none_⟩
    · exact .inr ⟨t, rfl, request⟩

/-! ## `svrreturn.c` -/

/-- What `part2` does for client `c`: its transaction is finished, and goes to the client that waits
for it or among the replies. -/
theorem part2_ok {c : ClientId} {b : BufId} {u : PUnit} {σ σ' : State}
    (done : part2 c b σ = .ok (u, σ')) :
    ∃ x t tr k, σ.client c = some x ∧ x.Idle ∧ x.wait4 = some (.tran t) ∧ σ.tran t = some tr ∧
      ((σ.nextCommand c).finish c t id).client tr.client = some k ∧
      ((∃ contents, (k.wait4 = some .any ∨ k.wait4 = some (.tran t)) ∧ k.Idle ∧
          ((σ.nextCommand c).finish c t id).Deletable t { tr with executor := none } ∧
          ((σ.nextCommand c).finish c t id).buf tr.data = some contents ∧
          σ' = ((σ.nextCommand c).finish c t id).reply t { tr with executor := none } contents) ∨
        k.wait4 ≠ some .any ∧ k.wait4 ≠ some (.tran t) ∧
          σ' = ((σ.nextCommand c).finish c t id).requeue t { tr with executor := none }) := by
  simp only [part2, bind_ok_iff, svrNextCommand_ok_iff, readClient_ok_iff, and_assoc,
    exists_and_left, exists_eq_left, exists_const] at done
  obtain ⟨⟨x, live, idle⟩, y, live', rest⟩ := done
  obtain ⟨z, seen, rfl⟩ := change_eq_some_iff.mp live'
  obtain rfl := Option.some.inj (live.symm.trans seen)
  rw [if_pos rfl] at rest
  rcases serves : x.wait4 with _ | t | _
  · simp only [serves] at rest
    exact (throw_ok_iff.mp rest).elim
  · simp only [serves, bind_ok_iff, modifyClient_ok_iff, modifyTran_ok_iff, readTran_ok_iff,
      readClient_ok_iff, and_assoc, exists_and_left, exists_eq_left, exists_const] at rest
    obtain ⟨_, ⟨tr, found⟩, tr', found', k, owner, rest⟩ := rest
    obtain ⟨tr'', found'', rfl⟩ := change_eq_some_iff.mp found'
    obtain rfl := Option.some.inj (found.symm.trans found'')
    rw [if_pos rfl] at owner
    refine ⟨x, t, tr, k, live, idle, serves, found, owner, ?_⟩
    split at rest
    · rename_i waiting
      obtain ⟨tr'', contents, z, deletable, room, live'', idle', rfl⟩ := sndReply_ok_iff.mp rest
      obtain rfl := Option.some.inj (found'.symm.trans deletable.live)
      rw [if_pos rfl] at deletable room live'' ⊢
      obtain rfl := Option.some.inj (owner.symm.trans live'')
      simp only [Bool.or_eq_true, decide_eq_true_eq] at waiting
      exact .inl ⟨contents, waiting, idle', deletable, room, rfl⟩
    · rename_i elsewhere
      obtain ⟨tr'', z, found'', live'', rfl⟩ := queueReply_ok_iff.mp rest
      obtain rfl := Option.some.inj (found'.symm.trans found'')
      simp only [Bool.or_eq_true, decide_eq_true_eq, not_or] at elsewhere
      rw [if_pos rfl]
      exact .inr ⟨elsewhere.1, elsewhere.2, rfl⟩
  · simp only [serves] at rest
    exact (throw_ok_iff.mp rest).elim

theorem part2_trace {c : ClientId} {b : BufId} {u : PUnit} {σ σ' : State} (asked : Returns σ₀ e c)
    (done : part2 c b σ = .ok (u, σ')) : Trace σ₀ e ⟨{ run := some c }, σ⟩ ⟨{}, σ'⟩ := by
  obtain ⟨x, t, tr, k, live, idle, serves, found, owner, outcome⟩ := part2_ok done
  have live' : (σ.nextCommand c).client c =
      some { x with handler := some .command, input := some σ.next, used := 0 } :=
    change_eq_some_iff.mpr ⟨x, live, by rw [if_pos rfl]⟩
  have found' : ((σ.nextCommand c).finish c t id).tran t = some { tr with executor := none } :=
    change_eq_some_iff.mpr ⟨tr, found, by rw [if_pos rfl]; rfl⟩
  have finishes : Effect σ₀ e ⟨{ run := some c }, σ.nextCommand c⟩
      ⟨{ run := some c, fin := some t }, (σ.nextCommand c).finish c t id⟩ :=
    .finish rfl rfl live' serves found asked
  refine .head (.next rfl live idle) (.head finishes ?_)
  rcases outcome with ⟨contents, waiting, idle', deletable, room, rfl⟩ | ⟨noAny, elsewhere, rfl⟩
  · have owner' : ((σ.nextCommand c).finish c t id).client
        ({ tr with executor := none } : Transaction).client = some k := owner
    refine .head (.replyWaiting rfl owner' idle' ?_ deletable room) return_trace
    exact waiting.symm.imp id fun any => ⟨rfl, any⟩
  · exact .head (.requeue rfl found' owner elsewhere fun _ => noAny) return_trace

theorem length_resize (contents : Bytes) (size : Nat) : (resize contents size).length = size := by
  simp only [resize, List.length_append, List.length_take, List.length_replicate]
  omega

theorem deliver_trace {c : ClientId} {b : BufId} {t : TranId} {x : Client} {tr : Transaction}
    {rval : BitVec 32} {rcode : BitVec 64} {old data contents : Bytes} {u : PUnit} {σ σ' : State}
    (inv : Inv ⟨{ run := some c, held := some b }, σ⟩)
    (live : σ.client c = some x) (idle : x.Idle) (serves : x.wait4 = some (.tran t))
    (found : σ.tran t = some tr) (room : σ.buf tr.data = some old)
    (asked : ∃ filled, Received σ₀ e c .svrreturn filled) (short : data.length < 2 ^ 31)
    (freed : ∃ held, (σ.setReturn t tr.data rval rcode data).buf b = some held)
    (room' : ((σ.setReturn t tr.data rval rcode data).freeBuf b).buf σ.next = some contents)
    (outcome :
      contents ≠ [] ∧
          σ' = ((σ.setReturn t tr.data rval rcode data).freeBuf b).arm c .part2 σ.next ∨
        contents = [] ∧ part2 c σ.next (((σ.setReturn t tr.data rval rcode data).freeBuf b).observe
          (.handled c .part2 [])) = .ok (u, σ')) :
    Trace σ₀ e ⟨{ run := some c, held := some b }, σ⟩ ⟨{}, σ'⟩ := by
  obtain ⟨held, freed⟩ := freed
  have stores : Effect σ₀ e ⟨{ run := some c, held := some b }, σ⟩
      ⟨{ run := some c, held := some b }, σ.setReturn t tr.data rval rcode data⟩ :=
    .setReturn rfl live serves found room short asked
  have found' : (σ.setReturn t tr.data rval rcode data).tran t =
      some { tr with rval, rcode, data := σ.next } := by
    simp [State.setReturn, State.mapTran, State.allocBuf, State.freeBuf, change, found]
  refine .head stores (.head (.release rfl freed) ?_)
  rcases outcome with ⟨nonempty, rfl⟩ | ⟨_, called⟩
  · refine .head (.armReturn rfl live idle serves found' room' nonempty asked ?_)
      (.single (.done (.inl rfl)))
    exact fun k y live' => inv.buffers.unread_next live'
  · exact .head (.call rfl (.inr (.inr rfl))) (part2_trace (asked.imp fun _ => .inl) called)

/-- What `svrreturn` leaves in `t->data`: null for a negative length and where there is no memory,
and otherwise the resized data. -/
theorem svrreturnData_ok {granted : Bool} {c : ClientId} {b : BufId} {result : Option BufId}
    {σ σ' : State} (done : svrreturnData granted c b σ = .ok (result, σ')) :
    ∃ (contents : Bytes) (x : Client), σ.buf b = some contents ∧ σ.client c = some x ∧
      (x.wait4 = some .any ∧ result = none ∨
        ∃ (t : TranId) (tr : Transaction) (old : Bytes), x.wait4 = some (.tran t) ∧
          σ.tran t = some tr ∧ σ.buf tr.data = some old ∧
          let len := (tolong (contents.drop (1 + IOLONG))).toInt
          let τ := σ.setReturn t tr.data ((contents.getD 0 0).signExtend 32)
            (tolong (contents.drop 1)) (resize old len.toNat)
          ((len < 0 ∨ granted = false) ∧ result = none ∨
            0 ≤ len ∧ granted = true ∧ result = some σ.next ∧ (∃ held, τ.buf b = some held) ∧
              σ' = τ.freeBuf b)) := by
  simp only [svrreturnData, bind_ok_iff, readBuf_ok_iff, readClient_ok_iff, and_assoc,
    exists_and_left, exists_eq_left] at done
  obtain ⟨contents, room, x, live, rest⟩ := done
  refine ⟨contents, x, room, live, ?_⟩
  rcases serves : x.wait4 with _ | t | _
  · simp only [serves] at rest
    exact (throw_ok_iff.mp rest).elim
  · simp only [serves, bind_ok_iff, modifyTran_ok_iff, readTran_ok_iff, tpreallocWith_ok_iff,
      and_assoc, exists_and_left, exists_eq_left, exists_const] at rest
    obtain ⟨⟨tr, found⟩, tr', found', data, τ, ⟨old, room', outcome⟩, rest⟩ := rest
    obtain ⟨tr'', found'', rfl⟩ := change_eq_some_iff.mp found'
    obtain rfl := Option.some.inj (found.symm.trans found'')
    simp only [↓reduceIte] at room' outcome
    refine .inr ⟨t, tr, old, rfl, found, room', ?_⟩
    rcases outcome with ⟨refused, rfl, _⟩ | ⟨fits, memory, rfl, rfl⟩
    · simp only [bind_ok_iff, pure_ok_iff] at rest
      obtain ⟨_, _, _, rfl, _⟩ := rest
      exact .inl ⟨refused, rfl⟩
    · simp only [bind_ok_iff, modifyTran_ok_iff, tpfree_ok_iff, pure_ok_iff, and_assoc,
        exists_and_left, exists_eq_left, exists_const] at rest
      obtain ⟨_, freed, rfl, rfl⟩ := rest
      exact .inr ⟨fits, memory, rfl, freed, rfl⟩
  · simp only [serves, bind_ok_iff, pure_ok_iff] at rest
    obtain ⟨_, _, _, rfl, _⟩ := rest
    exact .inl ⟨rfl, rfl⟩

/-- What `svrreturn` does for client `c`: the result is stored and its data read or, if there is
none, the transaction finished. -/
theorem svrreturn_ok {c : ClientId} {b : BufId} {u : PUnit} {σ σ' : State}
    (done : svrreturn c b σ = .ok (u, σ')) :
    ∃ (contents : Bytes) (x : Client) (t : TranId) (tr : Transaction) (old : Bytes) (len : Nat)
      (data : Bytes), σ.buf b = some contents ∧ σ.client c = some x ∧ x.Idle ∧
        x.wait4 = some (.tran t) ∧ σ.tran t = some tr ∧ σ.buf tr.data = some old ∧
        (tolong (contents.drop (1 + IOLONG))).toInt = len ∧
        let τ := σ.setReturn t tr.data ((contents.getD 0 0).signExtend 32)
          (tolong (contents.drop 1)) (resize old len)
        (∃ held, τ.buf b = some held) ∧ (τ.freeBuf b).buf σ.next = some data ∧
        (data ≠ [] ∧ σ' = (τ.freeBuf b).arm c .part2 σ.next ∨
          data = [] ∧
            part2 c σ.next ((τ.freeBuf b).observe (.handled c .part2 [])) = .ok (u, σ')) := by
  simp only [svrreturn, svrreturnWith, bind_ok_iff] at done
  obtain ⟨result, μ, stores, waits⟩ := done
  obtain ⟨contents, x, room, live, ⟨_, rfl⟩ | ⟨t, tr, old, serves, found, room', outcome⟩⟩ :=
    svrreturnData_ok stores
  · exact (throw_ok_iff.mp waits).elim
  · rcases outcome with ⟨_, rfl⟩ | ⟨fits, _, rfl, freed, rfl⟩
    · exact (throw_ok_iff.mp waits).elim
    · obtain ⟨y, data, live', idle, room'', outcome⟩ := svriowait_ok_iff.mp waits
      obtain rfl := Option.some.inj (live.symm.trans live')
      exact ⟨contents, x, t, tr, old, _, data, room, live, idle, serves, found, room',
        (Int.toNat_of_nonneg fits).symm, freed, room'', outcome⟩

theorem svrreturn_trace {c : ClientId} {b : BufId} {u : PUnit} {σ σ' : State}
    (inv : Inv ⟨{ run := some c, held := some b }, σ⟩)
    (asked : ∃ filled, Received σ₀ e c .svrreturn filled) (done : svrreturn c b σ = .ok (u, σ')) :
    Trace σ₀ e ⟨{ run := some c, held := some b }, σ⟩ ⟨{}, σ'⟩ := by
  obtain ⟨contents, x, t, tr, old, len, data, room, live, idle, serves, found, room', length,
    freed, room'', outcome⟩ := svrreturn_ok done
  refine deliver_trace inv live idle serves found room' asked ?_ freed room'' outcome
  have short := tolong_lt (contents.drop (1 + IOLONG))
  rw [length_resize]
  omega

/-! ## `svradvertise.c` and `svrunadvertise.c` -/

theorem newService_ok_iff {svcname : Bytes} {s : ServiceId} {σ σ' : State} :
    newService svcname σ = .ok (s, σ') ↔
      σ.fndService svcname = some s ∧ σ' = σ ∨
        σ.fndService svcname = none ∧ s = σ.next ∧ σ' = σ.addService svcname := by
  simp only [newService, bind_ok_iff, get_ok_iff, and_assoc, exists_and_left, exists_eq_left]
  cases found : σ.fndService svcname with
  | none =>
      simp only [bind_ok_iff, set_ok_iff, pure_ok_iff, exists_and_left, exists_eq_left,
        exists_const, reduceCtorEq, false_and, false_or, true_and]
  | some s' =>
      simp only [pure_ok_iff, Option.some.injEq, reduceCtorEq, false_and, or_false]
      rw [eq_comm]

theorem newAdvertisement_ok_iff {c : ClientId} {svcname : Bytes} {func : BitVec 64} {a : AdvertId}
    {σ σ' : State} :
    newAdvertisement c svcname func σ = .ok (a, σ') ↔
      ∃ s τ, newService svcname σ = .ok (s, τ) ∧
        (τ.fndAdvertisement c svcname = some a ∧ σ' = τ ∨
          τ.fndAdvertisement c svcname = none ∧ (∃ x, τ.client c = some x) ∧ a = τ.next ∧
            σ' = τ.offer ⟨s, c, func⟩) := by
  simp only [newAdvertisement, bind_ok_iff, get_ok_iff, and_assoc, exists_and_left, exists_eq_left]
  refine exists_congr fun s => exists_congr fun τ => and_congr_right fun _ => ?_
  cases found : τ.fndAdvertisement c svcname with
  | some b =>
      simp only [pure_ok_iff, Option.some.injEq, reduceCtorEq, false_and, or_false]
      rw [eq_comm]
  | none =>
      simp only [bind_ok_iff, set_ok_iff, modifyClient_ok_iff, pure_ok_iff, and_assoc,
        exists_and_left, exists_eq_left, exists_const, reduceCtorEq, false_and, false_or, true_and]
      rfl

theorem fndAdvertisement_addService {φ : Phase} {c : ClientId} {svcname : Bytes} {σ : State}
    (inv : Inv ⟨φ, σ⟩) (absent : σ.fndService svcname = none) :
    (σ.addService svcname).fndService svcname = some σ.next ∧
      (σ.addService svcname).fndAdvertisement c svcname = none := by
  have registry : Registry φ (σ.addService svcname) :=
    inv.registry.addService inv.waits.fresh_service absent
  have service : (σ.addService svcname).fndService svcname = some σ.next :=
    registry.fndService_eq_some_iff.mpr
      ⟨_, put_eq_some_iff.mpr (.inl ⟨rfl, rfl⟩), (cname_strncpy svcname).symm⟩
  refine ⟨service, Option.eq_none_iff_forall_ne_some.mpr fun b found => ?_⟩
  obtain ⟨x, v, live, member, advert, same⟩ := registry.fndAdvertisement_eq_some_iff.mp found
  obtain ⟨_, w, advert', _, svc, current⟩ := inv.registry.tree c x b live member
  obtain rfl := Option.some.inj (advert.symm.trans advert')
  rw [← Option.some.inj (service.symm.trans same), inv.waits.fresh_service] at current
  cases current

theorem newAdvertisement_trace {φ : Phase} {c : ClientId} {svcname : Bytes} {func : BitVec 64}
    {a : AdvertId} {σ σ' : State} (inv : Inv ⟨φ, σ⟩) (running : φ.run = some c)
    (noDet : φ.det = none) (noOrphan : φ.orphan = none) (noMade : φ.made = none)
    (asked : Advertises σ₀ e c svcname func)
    (done : newAdvertisement c svcname func σ = .ok (a, σ')) : Trace σ₀ e ⟨φ, σ⟩ ⟨φ, σ'⟩ := by
  obtain ⟨s, τ, made, rest⟩ := newAdvertisement_ok_iff.mp done
  rcases newService_ok_iff.mp made with ⟨service, rfl⟩ | ⟨absent, rfl, rfl⟩
  · rcases rest with ⟨_, rfl⟩ | ⟨found, ⟨x, live⟩, _, rfl⟩
    · exact .refl
    · have offers : Effect σ₀ e ⟨φ, τ⟩ ⟨{ φ with made := none }, τ.offer ⟨s, c, func⟩⟩ :=
        .offer running noDet noOrphan live rfl service found (by simp [noMade]) asked
      rw [← noMade] at offers
      exact .single offers
  · have founds : Effect σ₀ e ⟨φ, σ⟩ ⟨{ φ with made := some σ.next }, σ.addService svcname⟩ :=
      .found running absent noDet noMade
    obtain ⟨service, found⟩ := fndAdvertisement_addService (c := c) inv absent
    rcases rest with ⟨some_, _⟩ | ⟨_, ⟨x, live⟩, _, rfl⟩
    · simp [found] at some_
    · have offers : Effect σ₀ e ⟨{ φ with made := some σ.next }, σ.addService svcname⟩
          ⟨{ φ with made := none }, (σ.addService svcname).offer ⟨σ.next, c, func⟩⟩ :=
        .offer running noDet noOrphan live rfl service found (by simp) asked
      rw [← noMade] at offers
      exact .head founds (.single offers)

theorem svradvertise_trace {c : ClientId} {b : BufId} {contents : Bytes} {u : PUnit} {σ σ' : State}
    (inv : Inv ⟨{ run := some c, held := some b }, σ⟩) (room : σ.buf b = some contents)
    (asked : Received σ₀ e c .svradvertise contents)
    (done : svradvertise c b σ = .ok (u, σ')) :
    Trace σ₀ e ⟨{ run := some c, held := some b }, σ⟩ ⟨{}, σ'⟩ := by
  simp only [svradvertise, bind_ok_iff, readBuf_ok_iff, tpfree_ok_iff, readAdvert_ok_iff, and_assoc,
    exists_and_left, exists_eq_left, exists_const] at done
  obtain ⟨contents', room', a, τ, made, ⟨old, freed⟩, v, _, rest⟩ := done
  obtain rfl := Option.some.inj (room.symm.trans room')
  have advertised : Trace σ₀ e ⟨{ run := some c, held := some b }, σ⟩
      ⟨{ run := some c, held := some b }, τ⟩ :=
    newAdvertisement_trace inv rfl rfl rfl rfl ⟨contents, asked, rfl, rfl⟩ made
  refine advertised.trans (.head (.release rfl freed) ?_)
  split at rest <;>
    obtain ⟨⟨x, live, idle⟩, rfl⟩ := answer_ok_iff.mp rest <;>
    exact answer_trace live idle

theorem svrunadvertise_trace {c : ClientId} {b : BufId} {contents : Bytes} {u : PUnit}
    {σ σ' : State} (inv : Inv ⟨{ run := some c, held := some b }, σ⟩)
    (room : σ.buf b = some contents) (asked : Received σ₀ e c .svrunadvertise contents)
    (same : SameTables σ₀ σ) (done : svrunadvertise c b σ = .ok (u, σ')) :
    Trace σ₀ e ⟨{ run := some c, held := some b }, σ⟩ ⟨{}, σ'⟩ := by
  simp only [svrunadvertise, svrunadvertiseBy, delAdvertisementWith_plain, id_eq,
    bind_ok_iff, readBuf_ok_iff, get_ok_iff, tpfree_ok_iff, and_assoc,
    exists_and_left, exists_eq_left, exists_const] at done
  obtain ⟨contents', room', _, rest⟩ := done
  obtain rfl := Option.some.inj (room.symm.trans room')
  have released : Effect σ₀ e ⟨{ run := some c, held := some b }, σ⟩
      ⟨{ run := some c }, σ.freeBuf b⟩ :=
    .release rfl room
  refine .head released ?_
  cases found : σ.fndAdvertisement c (contents.take XATMI_SERVICE_NAME_LENGTH) with
  | none =>
      simp only [found] at rest
      obtain ⟨⟨x, live, idle⟩, rfl⟩ := answer_ok_iff.mp rest
      exact answer_trace live idle
  | some a =>
      simp only [found, bind_ok_iff, svrwrites_ok_iff, svrNextCommand_ok_iff, and_assoc,
        exists_and_left, exists_eq_left, exists_const, State.write_client] at rest
      obtain ⟨_, τ, deleted, _, ⟨x, live, idle⟩, rfl⟩ := rest
      obtain ⟨y, _, live', mine, _⟩ := inv.registry.fndAdvertisement_eq_some_iff.mp found
      have unadvertises : Unadvertises σ₀ e c a :=
        ⟨contents, asked, (same.fndAdvertisement_eq c _).symm.trans found⟩
      have withdrawn : Trace σ₀ e ⟨{ run := some c }, σ.freeBuf b⟩ ⟨{ run := some c }, τ⟩ :=
        delAdvertisement_trace (inv.effect released) rfl rfl live' mine rfl
          (.inr ⟨rfl, unadvertises, same.freeBuf b⟩) deleted
      exact withdrawn.trans (answer_trace live idle)

/-! ## `tpserver.c` -/

theorem commands_fixed {n : Nat} {handler : Handler} {len : Nat}
    (known : commands[n]? = some (handler, len)) : handler.ownsData = false := by
  have all : ∀ entry ∈ commands, entry.1.ownsData = false := by decide
  exact all _ (List.mem_of_getElem? known)

theorem commands_long {n : Nat} {handler : Handler} {len : Nat}
    (known : commands[n]? = some (handler, len)) (long : len ≠ 0) : handler ≠ .svrservice := by
  have all : ∀ entry ∈ commands, entry.2 ≠ 0 → entry.1 ≠ .svrservice := by decide
  exact all _ (List.mem_of_getElem? known) long

theorem commands_empty {byte : Byte} {handler : Handler}
    (known : commands[byte.toNat]? = some (handler, 0)) :
    handler = .svrservice ∧ byte = TPTWORK := by
  have short : byte.toNat < 6 := (List.getElem?_eq_some_iff.mp known).1
  have cases : ∀ n < 6, (commands[n]?).map Prod.snd = some 0 →
      n = TPTWORK.toNat ∧ (commands[n]?).map Prod.fst = some .svrservice := by decide
  obtain ⟨index, name⟩ := cases byte.toNat short (by rw [known]; rfl)
  rw [known] at name
  exact ⟨Option.some.inj name, BitVec.eq_of_toNat_eq index⟩

/-- What `command` does with a known message type: the fixed part is read, or `svrservice`
called. -/
theorem command_ok {env : Env} {c : ClientId} {b : BufId} {contents : Bytes} {handler : Handler}
    {len : Nat} {u : PUnit} {σ σ' : State} (room : σ.buf b = some contents)
    (known : commands[(contents.getD 0 0).toNat]? = some (handler, len))
    (done : command env c b σ = .ok (u, σ')) :
    ∃ x, σ.client c = some x ∧ x.Idle ∧
      (len ≠ 0 ∧ σ' = ((σ.freeBuf b).allocBuf (resize contents len)).arm c handler σ.next ∨
        len = 0 ∧ handler = .svrservice ∧ contents.getD 0 0 = TPTWORK ∧
          svrservice env c σ.next (((σ.freeBuf b).allocBuf []).observe
            (.handled c .svrservice [])) = .ok (u, σ')) := by
  simp only [command, bind_ok_iff, readBuf_ok_iff, and_assoc, exists_and_left,
    exists_eq_left] at done
  obtain ⟨contents', room', rest⟩ := done
  obtain rfl := Option.some.inj (room.symm.trans room')
  simp only [known, bind_ok_iff, tprealloc_ok_iff] at rest
  obtain ⟨data, τ, ⟨old, room', ⟨negative, _⟩ | ⟨_, rfl, rfl⟩⟩, rest⟩ := rest
  · omega
  obtain rfl := Option.some.inj (room.symm.trans room')
  obtain ⟨x, new, live, idle, room'', outcome⟩ := svriowait_ok_iff.mp rest
  obtain rfl : resize contents len = new := Option.some.inj ((if_pos rfl).symm.trans room'')
  have length := length_resize contents len
  refine ⟨x, live, idle, outcome.imp ?_ ?_⟩
  · rintro ⟨nonempty, rfl⟩
    refine ⟨?_, rfl⟩
    rintro rfl
    exact nonempty (List.eq_nil_of_length_eq_zero length)
  · rintro ⟨empty, called⟩
    obtain rfl : 0 = len := by simpa [empty] using length
    obtain ⟨rfl, work⟩ := commands_empty known
    refine ⟨rfl, rfl, work, ?_⟩
    rw [Int.toNat_natCast, empty] at called
    exact called

theorem command_trace {c : ClientId} {b : BufId} {contents : Bytes} {u : PUnit} {σ σ' : State}
    (inv : Inv ⟨{ run := some c, held := some b }, σ⟩) (room : σ.buf b = some contents)
    (asked : Received σ₀ e c .command contents) (same : SameTables σ₀ σ)
    (live : ∃ x, σ.client c = some x)
    (fresh : ∀ a k t, .dispatched a k t ∈ σ.log → .dispatched a k t ∈ σ₀.log)
    (done : command e.env c b σ = .ok (u, σ')) :
    Trace σ₀ e ⟨{ run := some c, held := some b }, σ⟩ ⟨{}, σ'⟩ := by
  cases known : commands[(contents.getD 0 0).toNat]? with
  | none =>
      simp only [command, bind_ok_iff, readBuf_ok_iff, and_assoc, exists_and_left,
        exists_eq_left] at done
      obtain ⟨contents', room', rest⟩ := done
      obtain rfl := Option.some.inj (room.symm.trans room')
      simp only [known, bind_ok_iff, tpfree_ok_iff, and_assoc, exists_and_left, exists_eq_left,
        exists_const] at rest
      obtain ⟨_, deleted⟩ := rest
      obtain ⟨x, live⟩ := live
      have released : Effect σ₀ e ⟨{ run := some c, held := some b }, σ⟩
          ⟨{ run := some c }, σ.freeBuf b⟩ :=
        .release rfl room
      exact .head released (delClient_trace (inv.effect released) (.inr ⟨contents, asked, known⟩)
        (.inr rfl) live (same.freeBuf b) deleted)
  | some entry =>
      obtain ⟨handler, len⟩ := entry
      have moved : ∀ data, Effect σ₀ e ⟨{ run := some c, held := some b }, σ⟩
          ⟨{ run := some c, held := some σ.next }, (σ.freeBuf b).allocBuf data⟩ :=
        fun _ => .resize rfl room
      obtain ⟨x, live', idle, ⟨long, rfl⟩ | ⟨rfl, rfl, work, called⟩⟩ := command_ok room known done
      · have nonempty : resize contents len ≠ [] := by
          intro empty
          have length := length_resize contents len
          rw [empty] at length
          exact long length.symm
        exact .head (moved _) (.head (.armHeader rfl rfl live' idle (if_pos rfl) nonempty
          (commands_fixed known) (commands_long known long)) (.single (.done (.inl rfl))))
      · have calls : Effect σ₀ e ⟨{ run := some c, held := some σ.next }, (σ.freeBuf b).allocBuf []⟩
            ⟨_, _⟩ :=
          .call rfl (.inl rfl)
        refine .head (moved _) (.head calls (svrservice_trace ((inv.effect (moved _)).effect calls)
          ⟨contents, asked, work⟩ ?_ ⟨x, live', idle⟩ ?_ called))
        · exact ⟨same.services, same.service, same.advert, same.tran, same.links, same.sent,
            same.client⟩
        · intro a k t seen
          exact fresh a k t ((List.mem_cons.mp seen).resolve_left (by simp))

theorem runHandler_trace {c : ClientId} {x : Client} {handler : Handler} {b : BufId}
    {contents filled : Bytes} {u : PUnit} {σ' : State} (inv : Inv ⟨{}, σ₀⟩)
    (asked : Received σ₀ e c handler filled) (live : σ₀.client c = some x)
    (into : x.input = some b) (reading : x.handler = some handler)
    (room : σ₀.buf b = some contents) (length : filled.length = contents.length)
    (nonempty : filled ≠ [])
    (done : runHandler e.env handler c b (σ₀.begin c handler b filled) = .ok (u, σ')) :
    Trace σ₀ e ⟨{}, σ₀⟩ ⟨{}, σ'⟩ := by
  have begins : Effect σ₀ e ⟨{}, σ₀⟩ ⟨.called c x handler b, σ₀.begin c handler b filled⟩ :=
    .begin asked live into reading room length nonempty
  have live' : (σ₀.begin c handler b filled).client c =
      some { x with handler := none, input := none, used := 0 } :=
    change_eq_some_iff.mpr ⟨x, live, by simp⟩
  have ready : ∃ y, (σ₀.begin c handler b filled).client c = some y ∧ y.Idle :=
    ⟨_, live', rfl, rfl, rfl⟩
  have room' : (σ₀.begin c handler b filled).buf b = some filled :=
    put_eq_some_iff.mpr (.inl ⟨rfl, rfl⟩)
  have same : SameTables σ₀ (σ₀.begin c handler b filled) :=
    ⟨rfl, rfl, rfl, rfl, rfl, rfl, fun _ => change_map fun _ => rfl⟩
  have before := inv
  have inv := inv.effect begins
  refine .head begins ?_
  cases handler with
  | command =>
      refine command_trace inv room' asked same (ready.imp fun _ => And.left) ?_ done
      exact fun a k t seen => (List.mem_cons.mp seen).resolve_left (by simp)
  | svracall => exact svracall_trace inv ⟨filled, asked⟩ done
  | svrgetrply => exact svrgetrply_trace ready ⟨filled, asked⟩ done
  | svradvertise => exact svradvertise_trace inv room' asked done
  | svrunadvertise => exact svrunadvertise_trace inv room' asked same done
  | svrservice => exact absurd reading (before.readers c x live).service
  | svrreturn => exact svrreturn_trace inv ⟨filled, asked⟩ done
  | sendToWorker =>
      cases last : x.requests.getLast? with
      | none =>
          simp only [runHandler, sendToWorker, bind_ok_iff, svrNextCommand_ok_iff,
            readClient_ok_iff, and_assoc, exists_and_left, exists_eq_left, exists_const] at done
          obtain ⟨_, y, armed, rest⟩ := done
          obtain ⟨z, seen, rfl⟩ := change_eq_some_iff.mp armed
          obtain rfl := Option.some.inj (live'.symm.trans seen)
          simp only [↓reduceIte, last] at rest
          exact (throw_ok_iff.mp rest).elim
      | some t =>
          simp only [Phase.called, last]
          exact sendToWorker_trace (b := b) live' last done
  | part2 => exact part2_trace (b := b) ⟨filled, .inr asked⟩ done

theorem serve_trace {c : ClientId} {input : Option Bytes} {u : PUnit} {σ' : State}
    (inv : Inv ⟨{}, σ₀⟩) (source : e.happening = .ready c input) (connected : c ∈ σ₀.clients)
    (done : serve e.env c input σ₀ = .ok (u, σ')) : Trace σ₀ e ⟨{}, σ₀⟩ ⟨{}, σ'⟩ := by
  simp only [serve, bind_ok_iff, readClient_ok_iff, and_assoc, exists_and_left,
    exists_eq_left] at done
  obtain ⟨x, live, rest⟩ := done
  cases into : x.input with
  | none =>
      simp only [into] at rest
      exact delClient_trace inv
        (.inl ⟨input, x, source, connected, live, .inr (.inl into)⟩) (.inl rfl) live (.refl _) rest
  | some b =>
      cases reading : x.handler with
      | none =>
          simp only [into, reading] at rest
          exact delClient_trace inv
            (.inl ⟨input, x, source, connected, live, .inl reading⟩) (.inl rfl) live (.refl _) rest
      | some handler =>
          simp only [into, reading, bind_ok_iff, readBuf_ok_iff, and_assoc, exists_and_left,
            exists_eq_left] at rest
          obtain ⟨contents, room, rest⟩ := rest
          split at rest
          · rename_i full
            exact delClient_trace inv (.inl ⟨input, x, source, connected, live,
              .inr (.inr (.inl ⟨b, contents, into, room, full⟩))⟩) (.inl rfl) live (.refl _) rest
          · rename_i space
            rcases got : input.map (List.take (contents.length - x.used)) with _ | _ | ⟨byte, more⟩
            · simp only [got] at rest
              exact delClient_trace inv (.inl ⟨input, x, source, connected, live,
                .inr (.inr (.inr (.inl (Option.map_eq_none_iff.mp got))))⟩) (.inl rfl) live
                (.refl _) rest
            · simp only [got] at rest
              refine delClient_trace inv (.inl ⟨input, x, source, connected, live,
                .inr (.inr (.inr (.inr ?_)))⟩) (.inl rfl) live (.refl _) rest
              obtain ⟨bytes, rfl, taken⟩ := Option.map_eq_some_iff.mp got
              rcases List.take_eq_nil_iff.mp taken with none | rfl
              · omega
              · rfl
            · have fits : x.used + (byte :: more).length ≤ contents.length := by
                obtain ⟨bytes, rfl, taken⟩ := Option.map_eq_some_iff.mp got
                have := congrArg List.length taken
                rw [List.length_take] at this
                omega
              simp only [got, bind_ok_iff, modify_ok_iff, exists_eq_left, exists_const] at rest
              split at rest
              · rename_i full
                simp only [bind_ok_iff, modifyClient_ok_iff, observe_ok_iff, and_assoc,
                  exists_and_left, exists_eq_left, exists_const] at rest
                obtain ⟨_, called⟩ := rest
                have length := length_overwrite fits
                refine runHandler_trace inv
                  (received_intro source connected live reading into room got (by simp) full) live
                  into reading room length ?_ called
                intro empty
                rw [empty] at length
                simp at length
                omega
              · rename_i short
                obtain ⟨_, rfl⟩ := modifyClient_ok_iff.mp rest
                exact .single (.fill live into reading room (by omega) ⟨input, source⟩)

/-- Every event the switchboard survives is a sequence of effects. -/
theorem step_trace {σ' : State} (inv : Inv ⟨{}, σ₀⟩) (done : step σ₀ e = .ok σ') :
    Trace σ₀ e ⟨{}, σ₀⟩ ⟨{}, σ'⟩ := by
  obtain ⟨u, done⟩ := map_snd_ok_iff.mp done
  unfold handle at done
  cases source : e.happening with
  | connect =>
      simp only [source, newClient, bind_ok_iff, get_ok_iff, set_ok_iff, pure_ok_iff,
        svrNextCommand_ok_iff] at done
      obtain ⟨_, _, ⟨_, _, ⟨rfl, rfl⟩, _, _, rfl, rfl, rfl⟩, _, rfl⟩ := done
      exact .single (.connect source)
  | ready c input =>
      simp only [source, bind_ok_iff, get_ok_iff, and_assoc, exists_and_left,
        exists_eq_left] at done
      split at done
      · exact serve_trace inv source ‹_› done
      · obtain ⟨_, rfl⟩ := pure_ok_iff.mp done
        exact .refl

/-- A client that is being deleted is one the event closes. -/
theorem closes_of_trace {κ : Conf} (trace : Trace σ₀ e ⟨{}, σ₀⟩ κ) {c : ClientId}
    (closing : κ.phase.closing = some c) : Closes σ₀ e c := by
  induction trace with
  | refl => cases closing
  | tail _ eff ih =>
      cases eff with
      | begin | connect | fill | dropClient | done => cases closing
      | close closes =>
          obtain rfl := Option.some.inj closing
          exact closes
      | _ => exact ih closing

/-- Identifiers are never given back. -/
theorem Effect.next_le {κ κ' : Conf} (eff : Effect σ₀ e κ κ') : κ.state.next ≤ κ'.state.next := by
  cases eff with
  | connect => exact (Nat.le_succ _).trans (Nat.le_succ _)
  | submit => exact (Nat.le_succ _).trans (Nat.le_succ _)
  | resize | next | assignUp | assignWork | replyQueued | replyWaiting | setReturn | found
  | offer =>
      exact Nat.le_succ _
  | _ => exact Nat.le_refl _

theorem next_le_of_trace {κ κ' : Conf} (trace : Trace σ₀ e κ κ') :
    κ.state.next ≤ κ'.state.next := by
  induction trace with
  | refl => exact Nat.le_refl _
  | tail _ eff ih => exact ih.trans eff.next_le

theorem Effect.sent_grows {κ κ' : Conf} (eff : Effect σ₀ e κ κ') (c : ClientId) :
    κ.state.sent c <+: κ'.state.sent c := by
  have written : ∀ (σ : State) (k : ClientId) (bytes : Bytes),
      σ.sent c <+: (σ.write k bytes).sent c := by
    intro σ k bytes
    simp only [State.write]
    split
    · rename_i same
      subst same
      exact List.prefix_append _ _
    · exact List.prefix_rfl
  cases eff with
  | write => exact written _ _ _
  | assignUp | assignWork => exact written _ _ _
  | replyQueued | replyWaiting => exact written _ _ _
  | _ => exact List.prefix_rfl

theorem sent_grows_of_trace {κ κ' : Conf} (trace : Trace σ₀ e κ κ') (c : ClientId) :
    κ.state.sent c <+: κ'.state.sent c := by
  induction trace with
  | refl => exact List.prefix_rfl
  | tail _ eff ih => exact ih.trans (eff.sent_grows c)

/-! ## Reachable memories -/

/-- The invariant holds in every reachable memory. -/
theorem inv_of_reachable {allowed : State → Event → Prop} {σ : State}
    (reach : Reachable allowed σ) : Inv ⟨{}, σ⟩ := by
  induction reach with
  | start => exact .start
  | next _ _ done ih => exact ih.trace (step_trace ih done)

/-- Induction over runs: what holds at the start and is kept by every effect of an allowed step, as
long as the invariant holds, holds in every memory reached. -/
theorem Reachable.induction {allowed : State → Event → Prop} {motive : Conf → Prop}
    (start : motive ⟨{}, .start⟩)
    (effect : ∀ {σ₀ e κ κ'}, Reachable allowed σ₀ → allowed σ₀ e → motive ⟨{}, σ₀⟩ →
      Trace σ₀ e ⟨{}, σ₀⟩ κ → Inv κ → motive κ → Effect σ₀ e κ κ' → motive κ')
    {σ : State} (reach : Reachable allowed σ) : motive ⟨{}, σ⟩ := by
  induction reach with
  | start => exact start
  | @next before after e reach ok done ih =>
      have inv := inv_of_reachable reach
      have trace := step_trace inv done
      have along : ∀ {κ}, Trace before e ⟨{}, before⟩ κ → motive κ := by
        intro κ trace
        induction trace with
        | refl => exact ih
        | tail sofar eff kept => exact effect reach ok ih sofar (inv.trace sofar) kept eff
      exact along trace

end Switchboard
end Xatmi
