import Xatmi.Switchboard.Invariant

/-!
# Deletion as a sequence of effects

`del_advertisement`, `del_service` and `del_client` when they return.  `del_service` can delete the
advertisements left on its queue only through `del_advertisement`, which calls it again: of the two
loops in it only the one over transactions ever ends.
-/

namespace Xatmi
namespace Switchboard

open Program Relation

variable {σ₀ : State} {e : Event}

/-! ## `del_service` on a queue of advertisements -/

/-- Advertisement `a` is the last one of its service, out of its client's tree and unlinked, and the
queue of the service is marked as a non-empty queue of advertisements. -/
structure Stuck (σ : State) (a : AdvertId) (v : Advert) (svc : Service) : Prop where
  advert : σ.advert a = some v
  service : σ.service v.svc = some svc
  workers : svc.waitContainsTransactions = false
  nonempty : ¬σ.EmptyQueue v.svc
  alone : σ.links.Alone (.adv a)
  withdrawn : ∀ x, σ.client v.client = some x → a ∉ x.adverts
  unique : ∀ b w, σ.advert b = some w → w.svc = v.svc → b = a
  near : σ.Near v.svc (σ.links.p2 (.head v.svc))
  unadvertised : σ.someoneAdvertises svc.svcname = false

theorem mapClient_eq_self {σ : State} {c : ClientId} {update : Client → Client}
    (same : ∀ x, σ.client c = some x → update x = x) : σ.mapClient c update = σ := by
  have client : change σ.client c update = σ.client := by
    funext k
    unfold change
    split
    · rename_i at_
      subst at_
      cases live : σ.client k with
      | none => rfl
      | some x => simp [same x live]
    · rfl
  simp [State.mapClient, client]

theorem not_qisempty_ok_iff {s : ServiceId} {goes : Bool} {σ σ' : State} :
    (do let empty ← qisempty s; pure !empty : M Bool) σ = .ok (goes, σ') ↔
      (∃ svc, σ.service s = some svc) ∧ (goes = true ↔ ¬σ.EmptyQueue s) ∧ σ' = σ := by
  simp only [bind_ok_iff, qisempty_ok_iff, pure_ok_iff, State.EmptyQueue]
  constructor
  · rintro ⟨_, _, ⟨live, rfl, rfl⟩, rfl, rfl⟩
    exact ⟨live, by simp, rfl⟩
  · rintro ⟨live, same, rfl⟩
    refine ⟨_, _, ⟨live, rfl, rfl⟩, ?_, rfl⟩
    cases goes <;> simp_all

theorem delAdvertisement_succ_ok_iff {depth : Nat} {a : AdvertId} {u : PUnit} {σ σ' : State} :
    delAdvertisement (depth + 1) a σ = .ok (u, σ') ↔
      ∃ v svc, σ.advert a = some v ∧ σ.Unlinkable (.adv a) ∧ (∃ x, σ.client v.client = some x) ∧
        σ.service v.svc = some svc ∧
        ((σ.detach a v.client).someoneAdvertises svc.svcname = true ∧
            σ' = (σ.detach a v.client).dropAdvert a ∨
          (σ.detach a v.client).someoneAdvertises svc.svcname = false ∧
            ∃ u' τ, delService (delAdvertisement depth) v.svc (σ.detach a v.client) = .ok (u', τ) ∧
              σ' = τ.dropAdvert a) := by
  simp only [← delAdvertisementWith_plain, delAdvertisementWith, delServiceWith_plain,
    Release.plain_advert, bind_ok_iff, readAdvert_ok_iff, qdelete_ok_iff, modifyClient_ok_iff,
    readService_ok_iff, get_ok_iff, and_assoc, exists_and_left, exists_eq_left, exists_const,
    State.detach]
  constructor
  · rintro ⟨v, found, unlinkable, live, svc, service, rest⟩
    refine ⟨v, found, unlinkable, live, svc, service, ?_⟩
    split at rest
    · exact .inl ⟨‹_›, modify_ok_iff.mp rest⟩
    · rename_i none
      simp only [bind_ok_iff, modify_ok_iff] at rest
      exact .inr ⟨(Bool.not_eq_true _).mp none, rest⟩
  · rintro ⟨v, found, unlinkable, live, svc, service, outcome⟩
    refine ⟨v, found, unlinkable, live, svc, service, ?_⟩
    rcases outcome with ⟨other, rfl⟩ | ⟨none, deleted⟩
    · rw [if_pos other]
      rfl
    · rw [if_neg (by simp [none])]
      simpa only [bind_ok_iff, modify_ok_iff] using deleted

theorem delService_ok_iff {delAdvert : AdvertId → M PUnit} {s : ServiceId} {u : PUnit}
    {σ σ' : State} :
    delService delAdvert s σ = .ok (u, σ') ↔
      ∃ svc u' τ, σ.service s = some svc ∧ σ' = τ.dropService s ∧
        (svc.waitContainsTransactions = true ∧
            whileLoop .diverges (do let empty ← qisempty s; pure !empty)
              (do let t ← nodeTran (← qfirst s); delTransaction t) σ.next σ = .ok (u', τ) ∨
          svc.waitContainsTransactions = false ∧
            whileLoop .diverges (do let empty ← qisempty s; pure !empty)
              (do let a ← nodeAdvert (← qfirst s); delAdvert a) σ.next σ = .ok (u', τ)) := by
  simp only [delService, delServiceWith, delTransactionWith_plain, Release.plain_service,
    bind_ok_iff, readService_ok_iff, get_ok_iff, and_assoc, exists_and_left,
    exists_eq_left]
  constructor
  · rintro ⟨svc, current, rest⟩
    cases flag : svc.waitContainsTransactions <;>
      simp only [flag, ↓reduceIte, Bool.false_eq_true, bind_ok_iff, modify_ok_iff] at rest <;>
      obtain ⟨u', τ, loop, rfl⟩ := rest
    · exact ⟨svc, current, u', τ, rfl, .inr ⟨flag, loop⟩⟩
    · exact ⟨svc, current, u', τ, rfl, .inl ⟨flag, loop⟩⟩
  · rintro ⟨svc, current, u', τ, rfl, ⟨flag, loop⟩ | ⟨flag, loop⟩⟩ <;>
      refine ⟨svc, current, ?_⟩ <;>
      simp only [flag, ↓reduceIte, Bool.false_eq_true, bind_ok_iff, modify_ok_iff] <;>
      exact ⟨u', τ, loop, rfl⟩

theorem delAdvertisement_stuck {depth : Nat} {σ : State} {a : AdvertId} {v : Advert}
    {svc : Service} (stuck : Stuck σ a v svc) {u : PUnit} {σ' : State} :
    delAdvertisement depth a σ ≠ .ok (u, σ') := by
  induction depth generalizing u σ' with
  | zero => exact fun done => throw_ok_iff.mp done
  | succ depth ih =>
      intro done
      obtain ⟨v', svc', advert, _, _, service, outcome⟩ := delAdvertisement_succ_ok_iff.mp done
      obtain rfl := Option.some.inj (stuck.advert.symm.trans advert)
      obtain rfl := Option.some.inj (stuck.service.symm.trans service)
      have same : σ.detach a v.client = σ := by
        have unlinked : σ.unlink (.adv a) = σ := by
          simp [State.unlink, Intrusive.Links.delete_of_alone stuck.alone]
        rw [State.detach, unlinked]
        refine mapClient_eq_self fun x live => ?_
        rw [List.erase_of_not_mem (stuck.withdrawn x live)]
      rw [same, stuck.unadvertised] at outcome
      obtain ⟨impossible, _⟩ | ⟨_, u', τ, deleted, _⟩ := outcome
      · cases impossible
      obtain ⟨svc', u'', τ', current, _, ⟨flag, _⟩ | ⟨_, loop⟩⟩ := delService_ok_iff.mp deleted
      · rw [← Option.some.inj (stuck.service.symm.trans current), stuck.workers] at flag
        cases flag
      · refine whileLoop_ne_ok ?_ ?_ loop
        · intro σ'' goes tested
          obtain ⟨_, goes, same⟩ := not_qisempty_ok_iff.mp tested
          exact ⟨goes.mpr stuck.nonempty, same⟩
        · intro σ'' done worked
          simp only [bind_ok_iff, qfirst_ok_iff, nodeAdvert_ok_iff, and_assoc, exists_and_left,
            exists_eq_left] at worked
          obtain ⟨_, b, first, again⟩ := worked
          have near := stuck.near
          rw [first] at near
          cases depth with
          | zero => exact throw_ok_iff.mp again
          | succ depth =>
              obtain ⟨w, _, found, _⟩ := delAdvertisement_succ_ok_iff.mp again
              obtain rfl := stuck.unique b w found (near w found)
              exact ih again

/-! ## What deletion keeps -/

/-- A property of memories that no part of a deletion touches. -/
structure KeptByDeletion (motive : State → Prop) : Prop where
  detach : ∀ {s a c}, motive s → motive (s.detach a c)
  delTran : ∀ {s t tr}, s.tran t = some tr → motive s → motive (s.delTran t tr)
  dropService : ∀ {s k}, motive s → motive (s.dropService k)
  dropAdvert : ∀ {s a}, motive s → motive (s.dropAdvert a)

theorem KeptByDeletion.delAdvertisement {motive : State → Prop} (kept : KeptByDeletion motive)
    {depth : Nat} {a : AdvertId} {u : PUnit} {σ σ' : State}
    (done : delAdvertisement depth a σ = .ok (u, σ')) (start : motive σ) : motive σ' := by
  induction depth generalizing a u σ σ' with
  | zero => exact (throw_ok_iff.mp done).elim
  | succ depth ih =>
      obtain ⟨v, svc, _, _, _, _, ⟨_, rfl⟩ | ⟨_, u', τ, deleted, rfl⟩⟩ :=
        delAdvertisement_succ_ok_iff.mp done
      · exact kept.dropAdvert (kept.detach start)
      · obtain ⟨svc', u'', μ, _, rfl, outcome⟩ := delService_ok_iff.mp deleted
        refine kept.dropAdvert (kept.dropService ?_)
        rcases outcome with ⟨_, loop⟩ | ⟨_, loop⟩
        · refine (whileLoop_ok loop (kept.detach start)
            (fun tested => (not_qisempty_ok_iff.mp tested).2.2) ?_).1
          intro s s' _ sofar _ worked
          simp only [bind_ok_iff, qfirst_ok_iff, nodeTran_ok_iff, delTransaction_ok_iff, and_assoc,
            exists_and_left, exists_eq_left] at worked
          obtain ⟨_, t, _, tr, deletable, rfl⟩ := worked
          exact kept.delTran deletable.live sofar
        · refine (whileLoop_ok loop (kept.detach start)
            (fun tested => (not_qisempty_ok_iff.mp tested).2.2) ?_).1
          intro s s' _ sofar _ worked
          simp only [bind_ok_iff, qfirst_ok_iff, nodeAdvert_ok_iff, and_assoc, exists_and_left,
            exists_eq_left] at worked
          obtain ⟨_, b, _, again⟩ := worked
          exact ih again sofar

/-! ## `del_advertisement` -/

theorem delService_trace {φ : Phase} {depth : Nat} {a : AdvertId} {v : Advert} {svc : Service}
    {u : PUnit} {σ σ' : State} (inv : Inv ⟨φ, σ⟩) (det : φ.det = some a)
    (noOrphan : φ.orphan = none) (advert : σ.advert a = some v)
    (service : σ.service v.svc = some svc) (unadvertised : σ.someoneAdvertises svc.svcname = false)
    (alone : σ.links.Alone (.adv a))
    (done : delService (delAdvertisement depth) v.svc σ = .ok (u, σ')) :
    Trace σ₀ e ⟨φ, σ⟩ ⟨φ, σ'⟩ ∧ σ'.advert = σ.advert ∧ σ'.service v.svc = none := by
  have first : Effect σ₀ e ⟨φ, σ⟩ ⟨{ φ with orphan := some v.svc }, σ⟩ :=
    .orphan det noOrphan advert service unadvertised
  have last : ∀ {τ : State}, τ.EmptyQueue v.svc →
      Effect σ₀ e ⟨{ φ with orphan := some v.svc }, τ⟩ ⟨φ, τ.dropService v.svc⟩ := by
    intro τ empty
    have eff : Effect σ₀ e ⟨{ φ with orphan := some v.svc }, τ⟩
        ⟨{ { φ with orphan := some v.svc } with orphan := none }, τ.dropService v.svc⟩ :=
      .dropService rfl empty
    simpa [← noOrphan] using eff
  obtain ⟨svc', u', τ, service', rfl, outcome⟩ := delService_ok_iff.mp done
  obtain rfl := Option.some.inj (service.symm.trans service')
  have gone : ∀ {τ : State}, (τ.dropService v.svc).service v.svc = none := if_pos rfl
  rcases outcome with ⟨flag, loop⟩ | ⟨flag, loop⟩
  · have ⟨⟨trace, _, adverts⟩, tested⟩ := whileLoop_ok
      (motive := fun s => Trace σ₀ e ⟨{ φ with orphan := some v.svc }, σ⟩
        ⟨{ φ with orphan := some v.svc }, s⟩ ∧ s.Flagged v.svc ∧ s.advert = σ.advert)
      loop ⟨.refl, ⟨svc, service, flag⟩, rfl⟩ (fun tested => (not_qisempty_ok_iff.mp tested).2.2) ?_
    · have empty : τ.EmptyQueue v.svc := by
        by_contra nonempty
        have := (not_qisempty_ok_iff.mp tested).2.1.mpr nonempty
        cases this
      exact ⟨(ReflTransGen.single first).trans (trace.tail (last empty)), adverts, gone⟩
    · rintro s s' _ ⟨sofar, queued, adverts⟩ tested worked
      have nonempty := (not_qisempty_ok_iff.mp tested).2.1.mp rfl
      simp only [bind_ok_iff, qfirst_ok_iff, nodeTran_ok_iff, delTransaction_ok_iff, and_assoc,
        exists_and_left, exists_eq_left] at worked
      obtain ⟨_, t, front, tr, deletable, rfl⟩ := worked
      exact ⟨sofar.tail (.sweep rfl queued nonempty front deletable), queued, adverts⟩
  · have inv' := inv.effect first
    by_cases empty : σ.EmptyQueue v.svc
    · have ⟨same, _⟩ := whileLoop_ok (motive := fun s => s = σ) loop rfl
        (fun tested => (not_qisempty_ok_iff.mp tested).2.2) (by
          rintro s s' _ rfl tested
          exact absurd empty ((not_qisempty_ok_iff.mp tested).2.1.mp rfl))
      subst same
      exact ⟨.head first (.single (last empty)), rfl, gone⟩
    · refine absurd loop (whileLoop_ne_ok ?_ ?_)
      · intro σ'' goes tested
        obtain ⟨_, goes, same⟩ := not_qisempty_ok_iff.mp tested
        exact ⟨goes.mpr empty, same⟩
      · intro σ'' _ worked
        simp only [bind_ok_iff, qfirst_ok_iff, nodeAdvert_ok_iff, and_assoc, exists_and_left,
          exists_eq_left] at worked
        obtain ⟨_, b, front, again⟩ := worked
        have near := (inv.waits.head v.svc svc service flag).2
        have unique : ∀ b w, σ.advert b = some w → w.svc = v.svc → b = a := by
          intro b w found same
          have := (inv'.registry.orphan v.svc rfl).2 b w found same
          exact (Option.some.inj (det.symm.trans this)).symm
        have stuck : Stuck σ a v svc :=
          { advert, service, workers := flag, nonempty := empty, alone, unique, near, unadvertised
            withdrawn := fun x live member =>
              (inv.registry.tree v.client x a live member).1 det }
        rw [front] at near
        cases depth with
        | zero => exact throw_ok_iff.mp again
        | succ depth =>
            obtain ⟨w, _, found, _⟩ := delAdvertisement_succ_ok_iff.mp again
            obtain rfl := unique b w found (near w found)
            exact delAdvertisement_stuck stuck again

theorem delAdvertisement_trace {φ : Phase} {depth : Nat} {a : AdvertId} {c : ClientId} {x : Client}
    {u : PUnit} {σ σ' : State} (inv : Inv ⟨φ, σ⟩) (noDet : φ.det = none)
    (noOrphan : φ.orphan = none) (live : σ.client c = some x) (mine : a ∈ x.adverts)
    (noFin : φ.fin = none)
    (reason : φ.closing = some c ∧ φ.settled = true ∨
      φ.run = some c ∧ Unadvertises σ₀ e c a ∧ SameTables σ₀ σ)
    (done : delAdvertisement depth a σ = .ok (u, σ')) : Trace σ₀ e ⟨φ, σ⟩ ⟨φ, σ'⟩ := by
  cases depth with
  | zero => exact (throw_ok_iff.mp done).elim
  | succ depth =>
      obtain ⟨v, svc, advert, unlinkable, _, service, outcome⟩ :=
        delAdvertisement_succ_ok_iff.mp done
      have first : Effect σ₀ e ⟨φ, σ⟩ ⟨{ φ with det := some a }, σ.detach a v.client⟩ :=
        .detach noDet noOrphan live mine reason advert unlinkable noFin
      have last : ∀ {τ : State}, (∀ v svc, τ.advert a = some v → τ.service v.svc = some svc →
            ∃ b w, b ≠ a ∧ τ.advert b = some w ∧ w.svc = v.svc) →
          Effect σ₀ e ⟨{ φ with det := some a }, τ⟩ ⟨φ, τ.dropAdvert a⟩ := by
        intro τ others
        have eff : Effect σ₀ e ⟨{ φ with det := some a }, τ⟩
            ⟨{ { φ with det := some a } with det := none }, τ.dropAdvert a⟩ :=
          .dropAdvert rfl noOrphan others
        simpa [← noDet] using eff
      rcases outcome with ⟨advertised, rfl⟩ | ⟨unadvertised, u', τ, deleted, rfl⟩
      · refine .head first (.single (last ?_))
        intro w svc' advert' service'
        obtain rfl := Option.some.inj (advert.symm.trans advert')
        obtain rfl := Option.some.inj (service.symm.trans service')
        exact (inv.effect first).registry.other_of_advertised rfl service advertised
      · have alone : (σ.detach a v.client).links.Alone (.adv a) :=
          Intrusive.Links.delete_alone _ _
        obtain ⟨swept, adverts, gone⟩ := delService_trace (inv.effect first) rfl noOrphan advert
          service unadvertised alone deleted
        refine .head first (swept.tail (last ?_))
        intro w svc' advert' service'
        rw [adverts] at advert'
        obtain rfl := Option.some.inj (advert.symm.trans advert')
        simp [gone] at service'

/-! ## `del_client` -/

theorem failTransaction_trace {c : ClientId} {t : TranId} {u : PUnit} {σ σ' : State}
    (done : failTransaction c t σ = .ok (u, σ')) :
    Trace σ₀ e ⟨{ closing := some c, settled := true, fin := some t }, σ.finish c t fun tr =>
      { tr with rval := TPERRNO, rcode := BitVec.ofNat 64 TPESVCERR }⟩
      ⟨{ closing := some c, settled := true }, σ'⟩ := by
  simp only [failTransaction, failTransactionWith, sndReplyWith_plain,
    bind_ok_iff, modifyClient_ok_iff, modifyTran_ok_iff, readTran_ok_iff,
    readClient_ok_iff, and_assoc, exists_and_left, exists_eq_left, exists_const] at done
  obtain ⟨_, _, tr, found, k, owner, rest⟩ := done
  split at rest
  · rename_i waiting
    obtain ⟨tr', contents, y, deletable, room, live, idle, rfl⟩ := sndReply_ok_iff.mp rest
    obtain rfl := Option.some.inj (found.symm.trans deletable.live)
    obtain rfl := Option.some.inj (owner.symm.trans live)
    exact .single (.replyWaiting rfl live idle (.inl waiting) deletable room)
  · rename_i elsewhere
    obtain ⟨tr', y, found', live, rfl⟩ := queueReply_ok_iff.mp rest
    obtain rfl := Option.some.inj (found.symm.trans found')
    obtain rfl := Option.some.inj (owner.symm.trans live)
    exact .single (.requeue rfl found' live elsewhere (by simp))

theorem failWork_ok_iff {c : ClientId} {u : PUnit} {σ σ' : State} :
    failWork c σ = .ok (u, σ') ↔ ∃ x, σ.client c = some x ∧
      ((∃ t tr a v, x.wait4 = some (.tran t) ∧ σ.tran t = some tr ∧ tr.executor = some a ∧
          σ.advert a = some v ∧ v.client = c ∧ failTransaction c t σ = .ok (u, σ')) ∨
        (∀ t, x.wait4 = some (.tran t) → ∃ tr, σ.tran t = some tr ∧
          ∀ a, tr.executor = some a → ∃ v, σ.advert a = some v ∧ v.client ≠ c) ∧ σ' = σ) := by
  simp only [failWork, failWorkWith, failTransactionWith_plain,
    bind_ok_iff, readClient_ok_iff, and_assoc, exists_and_left, exists_eq_left]
  refine exists_congr fun x => and_congr_right fun _ => ?_
  rcases serves : x.wait4 with _ | t | _
  · simp [pure_ok_iff]
  · simp only [bind_ok_iff, readTran_ok_iff, and_assoc, exists_and_left, exists_eq_left,
      Option.some.injEq, Wait.tran.injEq, exists_eq_left', forall_eq']
    constructor
    · rintro ⟨tr, found, rest⟩
      cases executor : tr.executor with
      | none =>
          simp only [executor] at rest
          exact .inr ⟨⟨tr, found, by simp [executor]⟩, (pure_ok_iff.mp rest).2⟩
      | some a =>
          simp only [executor, bind_ok_iff, readAdvert_ok_iff, and_assoc, exists_and_left,
            exists_eq_left] at rest
          obtain ⟨v, advert, rest⟩ := rest
          split at rest
          · exact .inl ⟨tr, found, a, executor, v, advert, ‹_›, rest⟩
          · refine .inr ⟨⟨tr, found, ?_⟩, (pure_ok_iff.mp rest).2⟩
            rintro _ same
            obtain rfl := Option.some.inj (executor.symm.trans same)
            exact ⟨v, advert, ‹_›⟩
    · rintro (⟨tr, found, a, executor, v, advert, mine, failed⟩ | ⟨⟨tr, found, other⟩, rfl⟩)
      · refine ⟨tr, found, ?_⟩
        simp only [executor, bind_ok_iff, readAdvert_ok_iff, and_assoc, exists_and_left,
          exists_eq_left]
        exact ⟨v, advert, by rw [if_pos mine]; exact failed⟩
      · refine ⟨tr, found, ?_⟩
        cases executor : tr.executor with
        | none => exact pure_ok_iff.mpr ⟨rfl, rfl⟩
        | some a =>
            obtain ⟨v, advert, different⟩ := other a executor
            simp only [bind_ok_iff, readAdvert_ok_iff, and_assoc, exists_and_left,
              exists_eq_left]
            exact ⟨v, advert, by rw [if_neg different]; exact pure_ok_iff.mpr ⟨rfl, rfl⟩⟩
  · simp [pure_ok_iff]

theorem failWork_trace {c : ClientId} {u : PUnit} {σ σ' : State} (same : SameTables σ₀ σ)
    (done : failWork c σ = .ok (u, σ')) :
    Trace σ₀ e ⟨{ closing := some c }, σ⟩ ⟨{ closing := some c, settled := true }, σ'⟩ := by
  obtain ⟨x, live, ⟨t, tr, a, v, serves, found, executor, advert, mine, failed⟩ |
    ⟨nothing, rfl⟩⟩ := failWork_ok_iff.mp done
  · exact .head (.fail rfl rfl live serves found executor advert mine rfl same)
      (failTransaction_trace failed)
  · refine .single (.spare rfl rfl rfl live ?_ same)
    intro t tr a v serves found executor advert
    obtain ⟨tr', found', other⟩ := nothing t serves
    obtain rfl := Option.some.inj (found.symm.trans found')
    obtain ⟨v', advert', different⟩ := other a executor
    obtain rfl := Option.some.inj (advert.symm.trans advert')
    exact different

theorem client_ok_iff {c : ClientId} {goes : Bool} {view : Client → Prop} [DecidablePred view]
    {σ σ' : State} :
    (do let x ← readClient c; pure (decide (view x)) : M Bool) σ = .ok (goes, σ') ↔
      ∃ x, σ.client c = some x ∧ goes = decide (view x) ∧ σ' = σ := by
  simp only [bind_ok_iff, readClient_ok_iff, pure_ok_iff, and_assoc, exists_and_left,
    exists_eq_left]

/-- The body of the loop over the tree of advertisements. -/
def visitRoot (env : Env) (c : ClientId) (visit : AdvertId → M PUnit) : M PUnit := do
  let x ← readClient c
  match env.walk x.adverts with
  | a :: _ => visit a
  | [] => pure ()

theorem visitRoot_of_test (env : Env) {c : ClientId} {x : Client} {σ : State}
    (live : σ.client c = some x)
    (tested : (do let x ← readClient c; pure (decide (x.adverts ≠ [])) : M Bool) σ =
      .ok (true, σ)) :
    ∃ a ∈ x.adverts, ∀ visit, visitRoot env c visit σ = visit a σ := by
  obtain ⟨y, live', goes, _⟩ := client_ok_iff.mp tested
  obtain rfl := Option.some.inj (live.symm.trans live')
  have some_ : env.walk x.adverts ≠ [] := by
    intro empty
    have perm := env.walk_perm x.adverts
    rw [empty, List.nil_perm] at perm
    simp [perm] at goes
  obtain ⟨a, others, root⟩ := List.exists_cons_of_ne_nil some_
  refine ⟨a, (env.walk_perm x.adverts).mem_iff.mp (by simp [root]), fun visit => ?_⟩
  unfold visitRoot
  rw [bind_of_ok (readClient_ok_iff.mpr ⟨live, rfl⟩), root]

/-- The body of the loops over the queues of transactions. -/
def visitFirst (c : ClientId) (queue : Client → List TranId) (visit : TranId → M PUnit) :
    M PUnit := do
  let x ← readClient c
  match queue x with
  | t :: _ => visit t
  | [] => pure ()

theorem delAdverts_trace {env : Env} {c : ClientId} {bound : Nat} {u : PUnit} {σ σ' : State}
    (inv : Inv ⟨{ closing := some c, settled := true }, σ⟩)
    (done : delAdverts env c bound σ = .ok (u, σ')) :
    Trace σ₀ e ⟨{ closing := some c, settled := true }, σ⟩
        ⟨{ closing := some c, settled := true }, σ'⟩ ∧
      ∃ x, σ'.client c = some x ∧ x.adverts = [] := by
  have ⟨trace, tested⟩ := whileLoop_ok
    (motive := fun s => Trace σ₀ e ⟨{ closing := some c, settled := true }, σ⟩
      ⟨{ closing := some c, settled := true }, s⟩)
    done .refl (fun tested => (client_ok_iff.mp tested).choose_spec.2.2) ?_
  · obtain ⟨x, live, empty, _⟩ := client_ok_iff.mp tested
    exact ⟨trace, x, live, by simpa using empty⟩
  · intro s s' _ sofar _ worked
    simp only [bind_ok_iff, readClient_ok_iff, and_assoc, exists_and_left, exists_eq_left] at worked
    obtain ⟨x, live, rest⟩ := worked
    cases root : env.walk x.adverts with
    | nil =>
        simp only [root] at rest
        obtain ⟨_, rfl⟩ := pure_ok_iff.mp rest
        exact sofar
    | cons a others =>
        simp only [root] at rest
        have mine : a ∈ x.adverts := (env.walk_perm x.adverts).mem_iff.mp (by simp [root])
        exact sofar.trans
          (delAdvertisement_trace (inv.trace sofar) rfl rfl live mine rfl (.inl ⟨rfl, rfl⟩) rest)

theorem KeptByDeletion.delAdverts {motive : State → Prop} (kept : KeptByDeletion motive) {env : Env}
    {c : ClientId} {bound : Nat} {u : PUnit} {σ σ' : State}
    (done : delAdverts env c bound σ = .ok (u, σ')) (start : motive σ) : motive σ' := by
  refine (whileLoop_ok done start (fun tested => (client_ok_iff.mp tested).choose_spec.2.2) ?_).1
  intro s s' _ sofar _ worked
  simp only [bind_ok_iff, readClient_ok_iff, and_assoc, exists_and_left, exists_eq_left] at worked
  obtain ⟨x, live, rest⟩ := worked
  cases root : env.walk x.adverts with
  | nil =>
      simp only [root] at rest
      obtain ⟨_, rfl⟩ := pure_ok_iff.mp rest
      exact sofar
  | cons a others =>
      simp only [root] at rest
      exact kept.delAdvertisement rest sofar

theorem KeptByDeletion.delQueue {motive : State → Prop} (kept : KeptByDeletion motive)
    {c : ClientId} {queue : Client → List TranId} {bound : Nat} {u : PUnit} {σ σ' : State}
    (done : delQueue c queue bound σ = .ok (u, σ')) (start : motive σ) : motive σ' := by
  refine (whileLoop_ok done start (fun tested => (client_ok_iff.mp tested).choose_spec.2.2) ?_).1
  intro s s' _ sofar _ worked
  simp only [bind_ok_iff, readClient_ok_iff, and_assoc, exists_and_left, exists_eq_left] at worked
  obtain ⟨x, live, rest⟩ := worked
  cases front : queue x with
  | nil =>
      simp only [front] at rest
      obtain ⟨_, rfl⟩ := pure_ok_iff.mp rest
      exact sofar
  | cons t others =>
      simp only [front] at rest
      obtain ⟨tr, deletable, rfl⟩ := delTransaction_ok_iff.mp rest
      exact kept.delTran deletable.live sofar

theorem delQueue_trace {c : ClientId} {queue : Client → List TranId} {kept : Client → Prop}
    {bound : Nat} {u : PUnit} {σ σ' : State}
    (mine : ∀ x t, t ∈ queue x → t ∈ x.requests ∨ t ∈ x.replies)
    (keeps : ∀ s t tr x, kept x → kept (State.bereave s t tr c x))
    (withdrawn : ∃ x, σ.client c = some x ∧ x.adverts = [] ∧ kept x)
    (done : delQueue c queue bound σ = .ok (u, σ')) :
    Trace σ₀ e ⟨{ closing := some c, settled := true }, σ⟩
        ⟨{ closing := some c, settled := true }, σ'⟩ ∧
      ∃ x, σ'.client c = some x ∧ x.adverts = [] ∧ kept x ∧ queue x = [] := by
  have ⟨⟨trace, x, live, empty, keep⟩, tested⟩ := whileLoop_ok
    (motive := fun s => Trace σ₀ e ⟨{ closing := some c, settled := true }, σ⟩
        ⟨{ closing := some c, settled := true }, s⟩ ∧
      ∃ x, s.client c = some x ∧ x.adverts = [] ∧ kept x)
    done ⟨.refl, withdrawn⟩ (fun tested => (client_ok_iff.mp tested).choose_spec.2.2) ?_
  · obtain ⟨y, live', none, _⟩ := client_ok_iff.mp tested
    obtain rfl := Option.some.inj (live.symm.trans live')
    exact ⟨trace, x, live, empty, keep, by simpa using none⟩
  · rintro s s' _ ⟨sofar, x, live, empty, keep⟩ _ worked
    simp only [bind_ok_iff, readClient_ok_iff, and_assoc, exists_and_left, exists_eq_left] at worked
    obtain ⟨y, live', rest⟩ := worked
    obtain rfl := Option.some.inj (live.symm.trans live')
    cases front : queue x with
    | nil =>
        simp only [front] at rest
        obtain ⟨_, rfl⟩ := pure_ok_iff.mp rest
        exact ⟨sofar, x, live, empty, keep⟩
    | cons t others =>
        simp only [front] at rest
        obtain ⟨tr, deletable, rfl⟩ := delTransaction_ok_iff.mp rest
        refine ⟨sofar.tail
          (.purge rfl rfl rfl rfl live empty (mine x t (by simp [front])) deletable),
          s.bereave t tr c x, ?_, empty, keeps s t tr x keep⟩
        simp [State.delTran, live]

theorem delClient_ends {φ : Phase} {env : Env} {c : ClientId} {x : Client} {u : PUnit}
    {σ σ' : State} (inv : Inv ⟨φ, σ⟩) (closes : Closes σ₀ e c)
    (quiet : φ = {} ∨ φ = { run := some c }) (live : σ.client c = some x) (same : SameTables σ₀ σ)
    (done : delClient env c σ = .ok (u, σ')) : ∃ ρ y,
      Trace σ₀ e ⟨{ closing := some c }, σ⟩ ⟨{ closing := some c, settled := true }, ρ⟩ ∧
      ρ.client c = some y ∧ y.adverts = [] ∧ y.requests = [] ∧ y.replies = [] ∧
      σ' = ρ.dropClient c := by
  simp only [delClient, delClientBy, failWorkWith_plain, delAdvertsWith_plain, delQueueWith_plain,
    id_eq, bind_ok_iff, get_ok_iff, modify_ok_iff, and_assoc] at done
  obtain ⟨_, _, failed, _, σ₁, rfl, rfl, _, σ₂, adverts, _, σ₃, requests, _, σ₄, replies, rfl⟩ :=
    done
  have closed : Trace σ₀ e ⟨{ closing := some c }, σ⟩ ⟨{ closing := some c, settled := true },
    σ₁⟩ :=
    failWork_trace same failed
  obtain ⟨second, y, live', withdrawn⟩ :=
    delAdverts_trace ((inv.effect (.close closes quiet live)).trace closed) adverts
  obtain ⟨third, z, live'', withdrawn', _, noRequests⟩ :=
    @delQueue_trace σ₀ e _ _ (fun _ => True) _ _ _ _ (fun _ _ => .inl) (fun _ _ _ _ => id)
      ⟨y, live', withdrawn, trivial⟩ requests
  obtain ⟨fourth, w, last, withdrawn'', noRequests, noReplies⟩ :=
    @delQueue_trace σ₀ e _ _ (fun x => x.requests = []) _ _ _ _ (fun _ _ => .inr)
      (by simp +contextual [State.bereave]) ⟨z, live'', withdrawn', noRequests⟩ replies
  exact ⟨σ₄, w, ((closed.trans second).trans third).trans fourth, last, withdrawn'', noRequests,
    noReplies, rfl⟩

/-- `del_client`. -/
theorem delClient_trace {φ : Phase} {env : Env} {c : ClientId} {x : Client} {u : PUnit}
    {σ σ' : State} (inv : Inv ⟨φ, σ⟩) (closes : Closes σ₀ e c)
    (quiet : φ = {} ∨ φ = { run := some c }) (live : σ.client c = some x) (same : SameTables σ₀ σ)
    (done : delClient env c σ = .ok (u, σ')) : Trace σ₀ e ⟨φ, σ⟩ ⟨{}, σ'⟩ := by
  obtain ⟨ρ, y, trace, last, withdrawn, noRequests, noReplies, rfl⟩ :=
    delClient_ends inv closes quiet live same done
  exact .head (.close closes quiet live)
    (trace.tail (.dropClient rfl rfl rfl last withdrawn noRequests noReplies))

end Switchboard
end Xatmi
