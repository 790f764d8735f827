import Xatmi.Switchboard.Release
import Xatmi.Switchboard.Serving
import Xatmi.Switchboard.Registration
import Xatmi.Switchboard.Origin

/-!
# Deletion ends

`del_client`, `del_advertisement` and `del_service` in an orderly run. The loops run over a tree and
over queues that every round makes shorter, and nothing that is left on the queue of an orphaned
service is an advertisement, so `del_service` never comes back to `del_advertisement`.
-/

namespace Xatmi
namespace Switchboard

open Program Relation

variable {σ₀ σ τ ρ : State} {e : Event} {φ : Phase} {c : ClientId}

/-! ## What deletion leaves alone -/

/-- Services and advertisements have only been taken away, and the advertisements of clients other
than `c` that are left are where they were. -/
structure Shrinks (c : ClientId) (σ τ : State) : Prop where
  service : ∀ s svc, τ.service s = some svc → σ.service s = some svc
  trees : ∀ k, k ≠ c → (τ.client k).map Client.adverts = (σ.client k).map Client.adverts
  waiting : ∀ a v, τ.advert a = some v → v.client ≠ c →
    σ.advert a = some v ∧ (τ.links.Alone (.adv a) ↔ σ.links.Alone (.adv a))

namespace Shrinks

theorem refl (c : ClientId) (σ : State) : Shrinks c σ σ :=
  ⟨fun _ _ => id, fun _ _ => rfl, fun _ _ advert _ => ⟨advert, Iff.rfl⟩⟩

theorem trans (first : Shrinks c σ τ) (second : Shrinks c τ ρ) : Shrinks c σ ρ := by
  refine ⟨fun s svc current => first.service s svc (second.service s svc current),
    fun k other => (second.trees k other).trans (first.trees k other), ?_⟩
  intro a v advert other
  obtain ⟨advert', same⟩ := second.waiting a v advert other
  obtain ⟨advert'', same'⟩ := first.waiting a v advert' other
  exact ⟨advert'', same.trans same'⟩

theorem of_same (service : τ.service = σ.service)
    (advert : τ.advert = σ.advert) (links : τ.links = σ.links)
    (client : ∀ k, (τ.client k).map Client.adverts = (σ.client k).map Client.adverts) :
    Shrinks c σ τ := by
  refine ⟨fun s svc current => service ▸ current, fun k _ => client k, fun a v current _ => ?_⟩
  rw [links]
  exact ⟨advert ▸ current, Iff.rfl⟩

theorem delTran (rings : Rings φ σ) {t : TranId} {tr : Transaction} (found : σ.tran t = some tr) :
    Shrinks c σ (σ.delTran t tr) := by
  refine ⟨fun _ _ => id, fun k _ => ?_, fun a v advert _ => ⟨advert, ?_⟩⟩
  · simp only [State.delTran, Option.map_map]
    rfl
  · exact (rings.threaded.delete (State.home_tran found)).2 (.adv a) _ (by simp)
      (State.home_adv (σ := σ) advert)

theorem reply (rings : Rings φ σ) {t : TranId} {tr : Transaction} (contents : Bytes)
    (found : σ.tran t = some tr) : Shrinks c σ (σ.reply t tr contents) := by
  let μ := ((σ.write tr.client (replyFrame tr contents)).nextCommand tr.client).mapClient tr.client
    fun x => { x with wait4 := none }
  have answered : Shrinks c σ μ := by
    refine of_same rfl rfl rfl fun k => ?_
    have armed : (((σ.write tr.client (replyFrame tr contents)).nextCommand tr.client).client k).map
        Client.adverts = (σ.client k).map Client.adverts := change_map fun _ => rfl
    have released : (μ.client k).map Client.adverts = _ := change_map fun _ => rfl
    exact released.trans armed
  have rings' : Rings φ μ := rings.congr rfl rfl rfl (fun _ => rfl) rfl
  have found' : μ.tran t = some tr := found
  exact answered.trans (delTran rings' found')

theorem detach (rings : Rings φ σ) {a : AdvertId} {v : Advert} (advert : σ.advert a = some v)
    (owner : v.client = c) : Shrinks c σ (σ.detach a c) := by
  refine ⟨fun _ _ => id, fun k other => ?_, fun b w current other => ⟨current, ?_⟩⟩
  · exact congrArg (Option.map Client.adverts) (if_neg other)
  · have different : b ≠ a := by
      rintro rfl
      obtain rfl := Option.some.inj (advert.symm.trans current)
      exact other owner
    exact (rings.threaded.delete (State.home_adv advert)).2 (.adv b) _
      (fun same => different (Node.adv.inj same)) (State.home_adv (σ := σ) current)

theorem dropAdvert (c : ClientId) (σ : State) (a : AdvertId) : Shrinks c σ (σ.dropAdvert a) :=
  ⟨fun _ _ => id, fun _ _ => rfl,
    fun _ _ advert _ => ⟨(put_none_eq_some_iff.mp advert).2, Iff.rfl⟩⟩

theorem dropService (c : ClientId) (σ : State) (s : ServiceId) : Shrinks c σ (σ.dropService s) :=
  ⟨fun _ _ current => (put_none_eq_some_iff.mp current).2, fun _ _ => rfl,
    fun _ _ advert _ => ⟨advert, Iff.rfl⟩⟩

theorem dropClient (c : ClientId) (σ : State) : Shrinks c σ (σ.dropClient c) :=
  ⟨fun _ _ => id, fun _ other => congrArg (Option.map Client.adverts) (if_neg other),
    fun _ _ advert _ => ⟨advert, Iff.rfl⟩⟩

end Shrinks

/-! ## Transactions -/

/-- What deletion needs of the memory. -/
structure Removable (φ : Phase) (σ : State) : Prop where
  all : Inv ⟨φ, σ⟩
  rings : Rings φ σ
  executors : ∀ t tr a, σ.tran t = some tr → tr.executor = some a →
    ∃ v, σ.advert a = some v ∧ ∃ x, σ.client v.client = some x
  serving : ∀ c x t, σ.client c = some x → x.wait4 = some (.tran t) → ∃ tr, σ.tran t = some tr
  /-- Whoever waits for a finished transaction is not being read from. -/
  finished : ∀ t c x, φ.fin = some t → σ.client c = some x → x.wait4 = some (.tran t) → x.Idle

theorem InOrder.removable (inOrder : InOrder ⟨φ, σ⟩) : Removable φ σ where
  all := inOrder.sound.all
  rings := inOrder.sound.rings
  executors := by
    intro t tr a found executor
    obtain ⟨notDet, v, advert⟩ := inOrder.executors.current t tr a found executor
    obtain ⟨x, live, _⟩ := inOrder.sound.all.registry.offered a v advert notDet
    exact ⟨v, advert, x, live⟩
  serving := by
    intro c x t live serves
    obtain ⟨tr, found, _⟩ := inOrder.serving c x t live serves
    exact ⟨tr, found⟩
  finished t c x fin live waits := inOrder.sound.idle_of_finished fin live (.inr waits)

theorem Removable.deletable (removable : Removable φ σ) {t : TranId} {tr : Transaction}
    (found : σ.tran t = some tr) : σ.Deletable t tr :=
  removable.all.deletable found fun a executor => removable.executors t tr a found executor

theorem transactions_length_le (inv : Inv ⟨φ, σ⟩) : σ.transactions.length ≤ σ.next := by
  refine length_le_of_nodup inv.own.transactions_nodup fun t member => ?_
  obtain ⟨tr, found⟩ := (inv.own.mem_transactions t).mp member
  exact (inv.waits.old (.tran t) (Option.isSome_of_eq_some found)).1

section

variable (removable : ∀ {φ σ}, Trace σ₀ e ⟨{}, σ₀⟩ ⟨φ, σ⟩ → Removable φ σ)

include removable

/-! ## `del_service` -/

theorem delService_total {a : AdvertId} {v : Advert} {svc : Service}
    (trace : Trace σ₀ e ⟨{}, σ₀⟩ ⟨φ, σ⟩) (det : φ.det = some a) (noOrphan : φ.orphan = none)
    (advert : σ.advert a = some v) (service : σ.service v.svc = some svc)
    (unadvertised : σ.someoneAdvertises svc.svcname = false) :
    ∃ τ, (∀ r : Release, r.Frees → ∀ delAdvert, delServiceWith r delAdvert v.svc σ = .ok (⟨⟩, τ)) ∧
      Shrinks c σ τ ∧ τ.advert = σ.advert ∧
      ∀ k, (τ.client k).map Client.adverts = (σ.client k).map Client.adverts := by
  have orphans : Trace σ₀ e ⟨{}, σ₀⟩ ⟨{ φ with orphan := some v.svc }, σ⟩ :=
    trace.tail (.orphan det noOrphan advert service unadvertised)
  have orphaned := removable orphans
  cases flag : svc.waitContainsTransactions with
  | true =>
      let Kept : State → Prop := fun s =>
        Trace σ₀ e ⟨{}, σ₀⟩ ⟨{ φ with orphan := some v.svc }, s⟩ ∧ s.service = σ.service ∧
          s.advert = σ.advert ∧
          (∀ k, (s.client k).map Client.adverts = (σ.client k).map Client.adverts) ∧ Shrinks c σ s
      have round : ∀ {s}, Kept s →
          (do let empty ← qisempty v.svc; pure !empty : M Bool) s = .ok (true, s) →
          ∃ s', (do let t ← nodeTran (← qfirst v.svc); delTransaction t : M PUnit) s = .ok
            (⟨⟩, s') ∧ Kept s' ∧ s'.transactions.length < s.transactions.length := by
        rintro s ⟨sofar, services, adverts, clients, shrinks⟩ tested
        have now := removable sofar
        have nonempty := (not_qisempty_ok_iff.mp tested).2.1.mp rfl
        have current : s.service v.svc = some svc := by rw [services]; exact service
        obtain ⟨t, front⟩ := now.rings.first_tran current flag nonempty
        obtain ⟨at_, _⟩ := now.rings.first_entry current nonempty
        rw [front] at at_
        obtain ⟨tr, found, _⟩ := Option.map_eq_some_iff.mp at_
        have deletable := now.deletable found
        refine ⟨s.delTran t tr, ?_, ⟨?_, services, adverts, fun k => ?_, ?_⟩, ?_⟩
        · simp only [bind_ok_iff, qfirst_ok_iff, nodeTran_ok_iff, delTransaction_ok_iff, and_assoc,
            exists_and_left, exists_eq_left]
          exact ⟨⟨svc, current⟩, t, front, tr, deletable, rfl⟩
        · exact sofar.tail (.sweep rfl ⟨svc, current, flag⟩ nonempty front deletable)
        · refine Eq.trans ?_ (clients k)
          simp only [State.delTran, Option.map_map]
          rfl
        · exact shrinks.trans (.delTran now.rings found)
        · have member : t ∈ s.transactions := (now.all.own.mem_transactions t).mpr ⟨tr, found⟩
          have := List.length_pos_of_mem member
          change (s.transactions.erase t).length < _
          rw [List.length_erase_of_mem member]
          omega
      have test : ∀ {s}, Kept s →
          ∃ goes, (do let empty ← qisempty v.svc; pure !empty : M Bool) s = .ok (goes, s) := by
        rintro s ⟨_, services, _⟩
        have current : s.service v.svc = some svc := by rw [services]; exact service
        by_cases empty : s.EmptyQueue v.svc
        · exact ⟨false, not_qisempty_ok_iff.mpr ⟨⟨svc, current⟩, by simp [empty], rfl⟩⟩
        · exact ⟨true, not_qisempty_ok_iff.mpr ⟨⟨svc, current⟩, by simp [empty], rfl⟩⟩
      have start : Kept σ := ⟨orphans, rfl, rfl, fun _ => rfl, .refl c σ⟩
      have bound : σ.transactions.length ≤ σ.next := transactions_length_le orphaned.all
      obtain ⟨τ, loop, ⟨_, services, adverts, clients, shrinks⟩⟩ : ∃ τ, whileLoop Fault.diverges
          (do let empty ← qisempty v.svc; pure !empty)
          (do let t ← nodeTran (← qfirst v.svc); delTransaction t) σ.next σ = .ok (⟨⟩, τ) ∧
          Kept τ := by
        obtain ⟨τ, loop, kept, _⟩ := whileLoop_total _ start bound test round
        exact ⟨τ, loop, kept⟩
      refine ⟨τ.dropService v.svc, fun r frees delAdvert => ?_,
        shrinks.trans (.dropService c τ v.svc), adverts, clients⟩
      unfold delServiceWith
      rw [delTransactionWith_eq frees, bind_of_ok (readService_ok_iff.mpr ⟨service, rfl⟩),
        bind_of_ok (get_ok_iff.mpr ⟨rfl, rfl⟩), if_pos flag, seq_of_ok loop]
      have current : τ.service v.svc = some svc := by rw [services]; exact service
      exact frees.service current
  | false =>
      have empty : σ.EmptyQueue v.svc := by
        by_contra nonempty
        obtain ⟨b, w, _, advert', same, linked⟩ := orphaned.rings.first_advert service flag nonempty
        have only := (orphaned.all.registry.orphan v.svc rfl).2 b w advert' same
        exact linked (orphaned.rings.det b w only advert')
      have stops : (do let empty ← qisempty v.svc; pure !empty : M Bool) σ = .ok (false, σ) :=
        not_qisempty_ok_iff.mpr ⟨⟨svc, service⟩, by simp [empty], rfl⟩
      have loop : ∀ body : M PUnit, whileLoop .diverges (do let empty ← qisempty v.svc; pure !empty)
          body σ.next σ = .ok (⟨⟩, σ) := by
        intro body
        cases σ.next <;> exact bind_of_ok stops
      refine ⟨σ.dropService v.svc, fun r frees delAdvert => ?_, .dropService c σ v.svc, rfl,
        fun _ => rfl⟩
      unfold delServiceWith
      rw [bind_of_ok (readService_ok_iff.mpr ⟨service, rfl⟩),
        bind_of_ok (get_ok_iff.mpr ⟨rfl, rfl⟩), if_neg (by simp [flag]), seq_of_ok (loop _)]
      exact frees.service service

/-! ## `del_advertisement` -/

theorem delAdvertisement_total {a : AdvertId} {x : Client} (trace : Trace σ₀ e ⟨{}, σ₀⟩ ⟨φ, σ⟩)
    (noDet : φ.det = none) (noOrphan : φ.orphan = none) (noFin : φ.fin = none)
    (live : σ.client c = some x) (mine : a ∈ x.adverts)
    (reason : φ.closing = some c ∧ φ.settled = true ∨
      φ.run = some c ∧ Unadvertises σ₀ e c a ∧ SameTables σ₀ σ) :
    ∃ τ, (∀ r : Release, r.Frees → ∀ depth, delAdvertisementWith r (depth + 1) a σ = .ok (⟨⟩, τ)) ∧
      Shrinks c σ τ ∧ τ.advert a = none ∧ ∃ y, τ.client c = some y ∧
      y.adverts = x.adverts.erase a := by
  have now := removable trace
  have rings : Rings φ σ := now.rings
  obtain ⟨_, v, advert, owner, svc, service⟩ := now.all.registry.tree c x a live mine
  subst owner
  have unlinkable : σ.Unlinkable (.adv a) := rings.unlinkable (State.home_adv advert)
  let μ := σ.detach a v.client
  have detaches : Trace σ₀ e ⟨{}, σ₀⟩ ⟨{ φ with det := some a }, μ⟩ :=
    trace.tail (.detach noDet noOrphan live mine reason advert unlinkable noFin)
  have detached : Shrinks v.client σ μ := .detach rings advert rfl
  have left : μ.client v.client = some { x with adverts := x.adverts.erase a } :=
    change_eq_some_iff.mpr ⟨x, live, (if_pos rfl).symm⟩
  have advert' : μ.advert a = some v := advert
  have service' : μ.service v.svc = some svc := service
  have begins : ∀ (r : Release) (depth : Nat), delAdvertisementWith r (depth + 1) a σ =
      ((if μ.someoneAdvertises svc.svcname then pure ()
        else delServiceWith r (delAdvertisementWith r depth) v.svc) >>= fun _ => r.advert a) μ := by
    intro r depth
    have unlinked : (σ.unlink (.adv a)).client v.client = some x := live
    unfold delAdvertisementWith
    rw [bind_of_ok (readAdvert_ok_iff.mpr ⟨advert, rfl⟩),
      seq_of_ok (qdelete_ok_iff.mpr ⟨unlinkable, rfl⟩),
      seq_of_ok (modifyClient_ok_iff.mpr ⟨⟨x, unlinked⟩, rfl⟩)]
    change (readService v.svc >>= _) μ = _
    rw [bind_of_ok (readService_ok_iff.mpr ⟨service', rfl⟩), bind_of_ok (get_ok_iff.mpr ⟨rfl, rfl⟩)]
    split <;> rfl
  cases advertised : μ.someoneAdvertises svc.svcname with
  | true =>
      refine ⟨μ.dropAdvert a, fun r frees depth => ?_, detached.trans (.dropAdvert _ μ a),
        if_pos rfl, _, left, rfl⟩
      rw [begins, if_pos advertised]
      exact frees.advert advert'
  | false =>
      obtain ⟨τ, deletes, shrinks, adverts, clients⟩ :=
        delService_total removable detaches rfl noOrphan advert' service' advertised
      obtain ⟨y, live', same⟩ := exists_of_map_eq (clients v.client).symm left
      refine ⟨τ.dropAdvert a, fun r frees depth => ?_,
        (detached.trans shrinks).trans (.dropAdvert _ τ a), if_pos rfl, y, live', same⟩
      rw [begins, if_neg (by simp [advertised]), seq_of_ok (deletes r frees _)]
      have current : τ.advert a = some v := by rw [adverts]; exact advert'
      exact frees.advert current

/-! ## `del_client` -/

theorem failWork_total {x : Client} (trace : Trace σ₀ e ⟨{}, σ₀⟩ ⟨{ closing := some c }, σ⟩)
    (live : σ.client c = some x) (same : SameTables σ₀ σ) :
    ∃ τ, failWork c σ = .ok (⟨⟩, τ) ∧ Shrinks c σ τ ∧ ∃ y, τ.client c = some y := by
  have now := removable trace
  by_cases works : ∃ t tr a v, x.wait4 = some (.tran t) ∧ σ.tran t = some tr ∧
      tr.executor = some a ∧ σ.advert a = some v ∧ v.client = c
  · obtain ⟨t, tr, a, v, serves, found, executor, advert, mine⟩ := works
    let μ := σ.finish c t fun tr => { tr with rval := TPERRNO, rcode := BitVec.ofNat 64 TPESVCERR }
    have fails : Trace σ₀ e ⟨{}, σ₀⟩ ⟨{ closing := some c, settled := true, fin := some t }, μ⟩ :=
      trace.tail (.fail rfl rfl live serves found executor advert mine rfl same)
    have failed := removable fails
    have finished : Shrinks c σ μ := .of_same rfl rfl rfl fun k => change_map fun _ => rfl
    let tr' : Transaction :=
      { tr with executor := none, rval := TPERRNO, rcode := BitVec.ofNat 64 TPESVCERR }
    have found' : μ.tran t = some tr' := change_eq_some_iff.mpr ⟨tr, found, (if_pos rfl).symm⟩
    obtain ⟨k, owner, _⟩ := failed.all.own.owned t tr' found'
    obtain ⟨contents, stored⟩ := failed.all.buffers.data t tr' found'
    have live' : ∃ y, μ.client c = some y := exists_change_eq_some_iff.mpr ⟨x, live⟩
    have answers : ∃ τ, failTransaction c t σ = .ok (⟨⟩, τ) ∧ Shrinks c μ τ ∧ ∃ y,
        τ.client c = some y := by
      have released : (σ.mapClient c fun x => { x with wait4 := none }).tran t = some tr := found
      have begins : failTransaction c t σ =
          (if k.wait4 = some (.tran t) then sndReply t else queueReply t) μ := by
        unfold failTransaction failTransactionWith
        rw [seq_of_ok (modifyClient_ok_iff.mpr ⟨⟨x, live⟩, rfl⟩),
          seq_of_ok (modifyTran_ok_iff.mpr ⟨⟨tr, released⟩, rfl⟩)]
        change (readTran t >>= _) μ = _
        rw [bind_of_ok (readTran_ok_iff.mpr ⟨found', rfl⟩),
          bind_of_ok (readClient_ok_iff.mpr ⟨owner, rfl⟩), sndReplyWith_plain]
      by_cases waiting : k.wait4 = some (.tran t)
      · have idle := failed.finished t _ k rfl owner waiting
        have armed : ∃ y, ((μ.write tr'.client (replyFrame tr' contents)).nextCommand
            tr'.client).client c = some y :=
          exists_change_eq_some_iff.mpr live'
        obtain ⟨y, released⟩ := exists_change_eq_some_iff.mpr armed
        refine ⟨μ.reply t tr' contents, ?_, .reply failed.rings contents found', _,
          Option.map_eq_some_iff.mpr ⟨y, released, rfl⟩⟩
        rw [begins, if_pos waiting]
        exact sndReply_ok_iff.mpr ⟨tr', contents, k, failed.deletable found', stored, owner,
          idle, rfl⟩
      · refine ⟨μ.requeue t tr', ?_, .of_same rfl rfl rfl fun k => change_map fun _ => rfl,
          exists_change_eq_some_iff.mpr live'⟩
        rw [begins, if_neg waiting]
        exact queueReply_ok_iff.mpr ⟨tr', k, found', owner, rfl⟩
    obtain ⟨τ, done, shrinks, left⟩ := answers
    exact ⟨τ, failWork_ok_iff.mpr ⟨x, live, .inl ⟨t, tr, a, v, serves, found, executor, advert,
      mine, done⟩⟩, finished.trans shrinks, left⟩
  · refine ⟨σ, failWork_ok_iff.mpr ⟨x, live, .inr ⟨fun t serves => ?_, rfl⟩⟩, .refl c σ, x, live⟩
    obtain ⟨tr, found⟩ := now.serving c x t live serves
    refine ⟨tr, found, fun a executor => ?_⟩
    obtain ⟨v, advert, _⟩ := now.executors t tr a found executor
    exact ⟨v, advert, fun mine => works ⟨t, tr, a, v, serves, found, executor, advert, mine⟩⟩

theorem delAdverts_total (env : Env) {x : Client} {bound : Nat}
    (trace : Trace σ₀ e ⟨{}, σ₀⟩ ⟨{ closing := some c, settled := true }, σ⟩)
    (live : σ.client c = some x) (enough : x.adverts.length ≤ bound) :
    ∃ τ, (∀ r : Release, r.Frees → ∀ depth,
        delAdvertsWith r (depth + 1) env c bound σ = .ok (⟨⟩, τ)) ∧ Shrinks c σ τ := by
  let Kept : State → Prop := fun s =>
    Trace σ₀ e ⟨{}, σ₀⟩ ⟨{ closing := some c, settled := true }, s⟩ ∧ (∃ y, s.client c = some y) ∧
      Shrinks c σ s
  let width : State → Nat := fun s => (s.client c).elim 0 fun y => y.adverts.length
  have turn : ∀ {s}, Kept s →
      (do let x ← readClient c; pure (decide (x.adverts ≠ [])) : M Bool) s = .ok (true, s) →
      ∃ s', (∀ r : Release, r.Frees → ∀ depth,
          visitRoot env c (delAdvertisementWith r (depth + 1)) s = .ok (⟨⟩, s')) ∧ Kept s' ∧
        width s' < width s := by
    rintro s ⟨sofar, ⟨y, live⟩, shrinks⟩ tested
    obtain ⟨a, mine, root⟩ := visitRoot_of_test env live tested
    obtain ⟨s', deletes, shrinks', _, z, live'', erased⟩ :=
      delAdvertisement_total removable sofar rfl rfl rfl live mine (.inl ⟨rfl, rfl⟩)
    have deleted : delAdvertisement 1 a s = .ok (⟨⟩, s') := by
      rw [← delAdvertisementWith_plain]
      exact deletes .plain Release.frees_plain 0
    have inv := (removable sofar).all
    refine ⟨s', fun r frees depth => ?_, ⟨?_, ⟨z, live''⟩, shrinks.trans shrinks'⟩, ?_⟩
    · rw [root]
      exact deletes r frees depth
    · exact sofar.trans (delAdvertisement_trace inv rfl rfl live mine rfl (.inl ⟨rfl, rfl⟩) deleted)
    · simp only [width, live, live'', Option.elim_some, erased, List.length_erase_of_mem mine]
      have := List.length_pos_of_mem mine
      omega
  have test : ∀ {s}, Kept s →
      ∃ goes, (do let x ← readClient c; pure (decide (x.adverts ≠ [])) : M Bool) s = .ok
        (goes, s) := by
    rintro s ⟨_, ⟨y, live⟩, _⟩
    exact ⟨_, client_ok_iff.mpr ⟨y, live, rfl, rfl⟩⟩
  have start : Kept σ := ⟨trace, ⟨x, live⟩, .refl c σ⟩
  have bounded : width σ ≤ bound := by simpa only [width, live, Option.elim_some] using enough
  obtain ⟨τ, loop, ⟨_, _, shrinks⟩⟩ : ∃ τ, delAdvertsWith .plain 1 env c bound σ = .ok (⟨⟩, τ) ∧
      Kept τ := by
    obtain ⟨τ, loop, kept, _⟩ := whileLoop_total width start bounded test fun kept tested => by
      obtain ⟨s', deletes, rest⟩ := turn kept tested
      exact ⟨s', deletes .plain Release.frees_plain 0, rest⟩
    exact ⟨τ, loop, kept⟩
  refine ⟨τ, fun r frees depth => ?_, shrinks⟩
  rw [← loop]
  refine whileLoop_congr (motive := Kept) start
    (fun tested => (client_ok_iff.mp tested).choose_spec.2.2) ?_ ?_
  · intro s kept tested
    obtain ⟨s', deletes, _⟩ := turn kept tested
    exact (deletes r frees depth).trans (deletes .plain Release.frees_plain 0).symm
  · intro s s' _ kept tested worked
    obtain ⟨s'', deletes, kept', _⟩ := turn kept tested
    have same := (deletes .plain Release.frees_plain 0).symm.trans worked
    obtain rfl : s'' = s' := congrArg Prod.snd (Except.ok.inj same)
    exact kept'

theorem delQueue_total (queue : Client → List TranId) {x : Client} {bound : Nat}
    (mine : ∀ x t, t ∈ queue x → t ∈ x.requests ∨ t ∈ x.replies)
    (erases : ∀ (s : State) t tr x, tr.client = c → queue (s.bereave t tr c x) = (queue x).erase t)
    (trace : Trace σ₀ e ⟨{}, σ₀⟩ ⟨{ closing := some c, settled := true }, σ⟩)
    (live : σ.client c = some x) (withdrawn : x.adverts = []) (enough : (queue x).length ≤ bound) :
    ∃ τ, delQueue c queue bound σ = .ok (⟨⟩, τ) ∧ Shrinks c σ τ := by
  let Kept : State → Prop := fun s =>
    Trace σ₀ e ⟨{}, σ₀⟩ ⟨{ closing := some c, settled := true }, s⟩ ∧
      (∃ y, s.client c = some y ∧ y.adverts = []) ∧ Shrinks c σ s
  let length : State → Nat := fun s => (s.client c).elim 0 fun y => (queue y).length
  have round : ∀ {s}, Kept s →
      (do let x ← readClient c; pure (decide (queue x ≠ [])) : M Bool) s = .ok (true, s) →
      ∃ s', visitFirst c queue delTransaction s = .ok (⟨⟩, s') ∧ Kept s' ∧
        length s' < length s := by
    rintro s ⟨sofar, ⟨y, live, withdrawn⟩, shrinks⟩ tested
    obtain ⟨y', live', goes, _⟩ := client_ok_iff.mp tested
    obtain rfl := Option.some.inj (live.symm.trans live')
    obtain ⟨t, others, front⟩ := List.exists_cons_of_ne_nil (of_decide_eq_true goes.symm)
    have now := removable sofar
    have first : t ∈ queue y := by simp [front]
    have outstanding : t ∈ y.outstanding := List.mem_append.mpr (mine y t first)
    obtain ⟨tr, found, owner⟩ := now.all.own.mine c y t live outstanding
    have deletable := now.deletable found
    have left : (s.delTran t tr).client c = some (s.bereave t tr c y) := by
      simp [State.delTran, live]
    refine ⟨s.delTran t tr, ?_, ⟨?_, ⟨_, left, withdrawn⟩, ?_⟩, ?_⟩
    · unfold visitFirst
      rw [bind_of_ok (readClient_ok_iff.mpr ⟨live, rfl⟩), front]
      exact delTransaction_ok_iff.mpr ⟨tr, deletable, rfl⟩
    · exact sofar.tail (.purge rfl rfl rfl rfl live withdrawn (mine y t first) deletable)
    · exact shrinks.trans (.delTran now.rings found)
    · simp only [length, live, left, Option.elim_some, erases s t tr y owner,
        List.length_erase_of_mem first]
      have := List.length_pos_of_mem first
      omega
  have test : ∀ {s}, Kept s →
      ∃ goes, (do let x ← readClient c; pure (decide (queue x ≠ [])) : M Bool) s = .ok
        (goes, s) := by
    rintro s ⟨_, ⟨y, live, _⟩, _⟩
    exact ⟨_, client_ok_iff.mpr ⟨y, live, rfl, rfl⟩⟩
  have start : Kept σ := ⟨trace, ⟨x, live, withdrawn⟩, .refl c σ⟩
  have bounded : length σ ≤ bound := by simpa only [length, live, Option.elim_some] using enough
  obtain ⟨τ, loop, ⟨_, _, shrinks⟩, _⟩ := whileLoop_total length start bounded test round
  exact ⟨τ, loop, shrinks⟩

theorem delClient_total (env : Env) {x : Client} (closes : Closes σ₀ e c)
    (quiet : φ = {} ∨ φ = { run := some c }) (trace : Trace σ₀ e ⟨{}, σ₀⟩ ⟨φ, σ⟩)
    (same : SameTables σ₀ σ) (live : σ.client c = some x) :
    ∃ τ, (∀ r : Release, r.Frees → ∀ depth, delClientWith r (depth + 1) env c σ = .ok (⟨⟩, τ)) ∧
      delClient env c σ = .ok (⟨⟩, τ) ∧ Shrinks c σ τ := by
  have start : Inv ⟨{}, σ₀⟩ := (removable .refl).all
  have closed : Trace σ₀ e ⟨{}, σ₀⟩ ⟨{ closing := some c }, σ⟩ :=
    trace.tail (.close closes quiet live)
  obtain ⟨σ₁, fails, shrinks₁, x₁, live₁⟩ := failWork_total removable closed live same
  have failed := closed.trans (failWork_trace same fails)
  have inv₁ := start.trace failed
  have adverts : x₁.adverts.length ≤ σ₁.next := by
    refine length_le_of_nodup (inv₁.registry.tree_nodup c x₁ live₁) fun a mine => ?_
    obtain ⟨_, v, advert, _⟩ := inv₁.registry.tree c x₁ a live₁ mine
    exact (inv₁.waits.old (.adv a) (Option.isSome_of_eq_some advert)).1
  obtain ⟨σ₂, withdraws, shrinks₂⟩ :=
    delAdverts_total removable env failed live₁ adverts
  have old : ∀ {s y t}, Trace σ₀ e ⟨{}, σ₀⟩ ⟨{ closing := some c, settled := true }, s⟩ →
      s.client c = some y → t ∈ y.outstanding → t < σ₁.next := by
    intro s y t sofar live member
    obtain ⟨tr, found, _⟩ := (start.trace sofar).own.mine c y t live member
    rcases tran_of_trace sofar found with ⟨tr₀, found₀, _⟩ | ⟨_, filled, received⟩
    · exact Nat.lt_of_lt_of_le (start.waits.old (.tran t) (Option.isSome_of_eq_some found₀)).1
        (next_le_of_trace failed)
    · exact absurd (closes.received received).1 (by decide)
  have later : c < σ₁.next :=
    Nat.lt_of_lt_of_le (start.fresh.clients c closes.connected) (next_le_of_trace failed)
  obtain ⟨next, positive⟩ := Nat.exists_eq_add_one_of_ne_zero (Nat.ne_zero_of_lt later)
  have withdraws' : delAdverts env c σ₁.next σ₁ = .ok (⟨⟩, σ₂) := by
    have plain := withdraws .plain Release.frees_plain next
    rw [← positive] at plain
    unfold delAdvertsWith at plain
    rw [delAdvertisementWith_plain] at plain
    exact plain
  obtain ⟨second, y, live₂, withdrawn⟩ := delAdverts_trace inv₁ withdraws'
  have sofar := failed.trans second
  have requests : y.requests.length ≤ σ₁.next :=
    length_le_of_nodup ((start.trace sofar).own.nodup c y live₂).of_append_left
      fun t mine => old sofar live₂ (List.mem_append_left _ mine)
  obtain ⟨σ₃, purges, shrinks₃⟩ := delQueue_total removable Client.requests
    (fun _ _ => .inl) (fun s t tr x mine => by simp [State.bereave, mine]) sofar live₂
    withdrawn requests
  obtain ⟨third, z, live₃, withdrawn', _, noRequests⟩ :=
    @delQueue_trace σ₀ e _ _ (fun _ => True) _ _ _ _ (fun _ _ => .inl) (fun _ _ _ _ => id)
      ⟨y, live₂, withdrawn, trivial⟩ purges
  have sofar' := sofar.trans third
  have replies : z.replies.length ≤ σ₁.next :=
    length_le_of_nodup ((start.trace sofar').own.nodup c z live₃).of_append_right
      fun t mine => old sofar' live₃ (List.mem_append_right _ mine)
  obtain ⟨σ₄, purges', shrinks₄⟩ := delQueue_total removable Client.replies
    (fun _ _ => .inr) (fun s t tr x mine => by simp [State.bereave, mine]) sofar' live₃
    withdrawn' replies
  refine ⟨σ₄.dropClient c, fun r frees depth => ?_, ?_,
    (((shrinks₁.trans shrinks₂).trans shrinks₃).trans shrinks₄).trans (.dropClient c σ₄)⟩
  · unfold delClientWith delClientBy
    rw [failWorkWith_eq frees, delQueueWith_eq frees, seq_of_ok fails,
      bind_of_ok (get_ok_iff.mpr ⟨rfl, rfl⟩), seq_of_ok (withdraws r frees depth), seq_of_ok purges,
      seq_of_ok purges']
    rfl
  · simp only [delClient, delClientBy, failWorkWith_plain, delAdvertsWith_plain, delQueueWith_plain,
      id_eq]
    rw [seq_of_ok fails, bind_of_ok (get_ok_iff.mpr ⟨rfl, rfl⟩), seq_of_ok withdraws',
      seq_of_ok purges, seq_of_ok purges']
    rfl

/-! ## `svrunadvertise` -/

/-- `svrunadvertise` once it has looked for the advertisement. -/
def withdrawFound (c : ClientId) (delete : AdvertId → M PUnit) : Option AdvertId → M PUnit
  | some a => do
      delete a
      svrwrites c 0
      svrNextCommand c
  | none => do
      svrwrites c (BitVec.ofNat 16 TPENOENT)
      svrNextCommand c

theorem svrunadvertise_total {filled : Bytes} (received : Received σ₀ e c .svrunadvertise filled) :
    ∃ x b τ, σ₀.client c = some x ∧ x.input = some b ∧ step σ₀ e = .ok τ ∧
      ∀ r : Release, r.Frees → ∀ depth,
        (svrunadvertiseWith r (depth + 1) c b (σ₀.begin c .svrunadvertise b filled)).map Prod.snd =
          .ok τ := by
  have start : Inv ⟨{}, σ₀⟩ := (removable .refl).all
  obtain ⟨x, b, contents, live, into, reading, room, length, nonempty, steps⟩ :=
    step_of_received received
  let μ := σ₀.begin c .svrunadvertise b filled
  have room' : μ.buf b = some filled := if_pos rfl
  have same : SameTables σ₀ μ := sameTables_begin c .svrunadvertise b filled
  have begins : Effect σ₀ e ⟨{}, σ₀⟩ ⟨.called c x .svrunadvertise b, μ⟩ :=
    .begin received live into reading room length nonempty
  have releases : Effect σ₀ e ⟨.called c x .svrunadvertise b, μ⟩ ⟨{ run := some c }, μ.freeBuf b⟩ :=
    .release rfl room'
  have sofar : Trace σ₀ e ⟨{}, σ₀⟩ ⟨{ run := some c }, μ.freeBuf b⟩ :=
    .head begins (.single releases)
  have live' : (μ.freeBuf b).client c = some { x with handler := none, input := none, used := 0 } :=
    change_eq_some_iff.mpr ⟨x, live, by simp⟩
  have connected := (start.registry.mem_clients c).mpr ⟨x, live⟩
  obtain ⟨next, positive⟩ : ∃ next, μ.next = next + 1 :=
    Nat.exists_eq_add_one_of_ne_zero (Nat.ne_zero_of_lt (start.fresh.clients c connected))
  have opens : ∀ (r : Release) (depth : Nat), svrunadvertiseWith r (depth + 1) c b μ =
      withdrawFound c (delAdvertisementWith r (depth + 1))
        (μ.fndAdvertisement c (filled.take XATMI_SERVICE_NAME_LENGTH)) (μ.freeBuf b) := by
    intro r depth
    unfold svrunadvertiseWith svrunadvertiseBy
    rewrite [bind_of_ok (readBuf_ok_iff.mpr ⟨room', rfl⟩), bind_of_ok (get_ok_iff.mpr ⟨rfl, rfl⟩),
      seq_of_ok (tpfree_ok_iff.mpr ⟨⟨filled, room'⟩, rfl⟩)]
    rfl
  have plainly : svrunadvertise c b μ = svrunadvertiseWith .plain (next + 1) c b μ := by
    rw [← positive]
    refine bind_congr_of_ok fun _ s read => ?_
    obtain ⟨_, rfl⟩ := readBuf_ok_iff.mp read
    refine bind_congr_of_ok fun s' _ got => ?_
    obtain ⟨rfl, rfl⟩ := get_ok_iff.mp got
    rfl
  obtain ⟨τ, runs⟩ : ∃ τ, ∀ r : Release, r.Frees → ∀ depth,
      svrunadvertiseWith r (depth + 1) c b μ = .ok (⟨⟩, τ) := by
    cases found : μ.fndAdvertisement c (filled.take XATMI_SERVICE_NAME_LENGTH) with
    | none =>
        refine ⟨((μ.freeBuf b).write c (shortBytes (BitVec.ofNat 16 TPENOENT))).nextCommand c,
          fun r _ depth => ?_⟩
        rw [opens, found]
        exact answer_ok_iff.mpr ⟨⟨_, live', rfl, rfl, rfl⟩, rfl⟩
    | some a =>
        obtain ⟨y, _, live'', mine, _⟩ :=
          (start.effect begins).registry.fndAdvertisement_eq_some_iff.mp found
        have unadvertises : Unadvertises σ₀ e c a :=
          ⟨filled, received, (same.fndAdvertisement_eq c _).symm.trans found⟩
        obtain ⟨s, deletes, _⟩ := delAdvertisement_total removable sofar rfl rfl rfl live'' mine
          (.inr ⟨rfl, unadvertises, same.freeBuf b⟩)
        have deleted : delAdvertisement 1 a (μ.freeBuf b) = .ok (⟨⟩, s) :=
          deletes .plain Release.frees_plain 0
        obtain ⟨z, left, intake⟩ := exists_of_map_eq (delAdvertisement_intake deleted c).symm live'
        simp only [Client.intake, Prod.mk.injEq] at intake
        refine ⟨(s.write c (shortBytes 0)).nextCommand c, fun r frees depth => ?_⟩
        rw [opens, found]
        change (delAdvertisementWith r (depth + 1) a >>= fun _ => svrwrites c 0 >>= fun _ =>
          svrNextCommand c) (μ.freeBuf b) = _
        rw [seq_of_ok (deletes r frees depth)]
        exact answer_ok_iff.mpr ⟨⟨z, left, intake⟩, rfl⟩
  refine ⟨x, b, τ, live, into, ?_, fun r frees depth => ?_⟩
  · have called : runHandler e.env .svrunadvertise c b μ = .ok (⟨⟩, τ) :=
      plainly.trans (runs .plain Release.frees_plain next)
    rw [steps, called]
    rfl
  · rw [runs r frees depth]
    rfl

end

/-! ## What is left -/

/-- What the deletion of client `c` makes of a state. -/
structure Cleared (σ τ : State) (c : ClientId) : Prop where
  client : τ.client c = none
  clients : c ∉ τ.clients
  /-- The advertisements that are left are those of other clients. -/
  advert : ∀ a v, τ.advert a = some v ↔ σ.advert a = some v ∧ v.client ≠ c
  /-- An advertisement of the client is in no tree and on no queue. -/
  withdrawn : ∀ a v, σ.advert a = some v → v.client = c →
    (∀ k y, τ.client k = some y → a ∉ y.adverts) ∧
    ∀ s svc entries, τ.service s = some svc → τ.links.IsRing (.head s) entries → .adv a ∉ entries
  /-- A transaction of the client is freed and on no queue. -/
  tran : ∀ t tr, σ.tran t = some tr → tr.client = c → τ.tran t = none ∧
    (∀ k y, τ.client k = some y → t ∉ y.outstanding) ∧
    ∀ s svc entries, τ.service s = some svc → τ.links.IsRing (.head s) entries → .tran t ∉ entries
  /-- The services that are left are those that another client advertises. -/
  service : ∀ s svc, τ.service s = some svc ↔
    σ.service s = some svc ∧ ∃ a v, σ.advert a = some v ∧ v.svc = s ∧ v.client ≠ c
  services : ∀ s, s ∈ τ.services ↔ s ∈ σ.services ∧ ∃ a v, σ.advert a = some v ∧ v.svc = s ∧
    v.client ≠ c
  /-- The trees of other clients are as they were. -/
  trees : ∀ k, k ≠ c → (τ.client k).map Client.adverts = (σ.client k).map Client.adverts
  /-- The advertisements of other clients wait as they did. -/
  waiting : ∀ a v, σ.advert a = some v → v.client ≠ c →
    (τ.links.Alone (.adv a) ↔ σ.links.Alone (.adv a))

theorem cleared_of_shrinks (inv : Inv ⟨{}, σ⟩) (advertised : Advertised {} σ)
    (closes : Closes σ e c) (trace : Trace σ e ⟨{}, σ⟩ ⟨{}, τ⟩) (rings : Rings {} τ)
    (left : τ.client c = none) (shrinks : Shrinks c σ τ) : Cleared σ τ c := by
  have inv' := inv.trace trace
  have registry : Registry {} σ := inv.registry
  have registry' : Registry {} τ := inv'.registry
  have adverts : ∀ a v, τ.advert a = some v ↔ σ.advert a = some v ∧ v.client ≠ c := by
    intro a v
    rw [advert_iff_of_closes inv trace closes left]
    exact and_congr_right fun advert => not_congr (closes.withdraws_iff advert)
  have gone : ∀ {a v w}, σ.advert a = some v → v.client = c → τ.advert a ≠ some w := by
    intro a v w advert mine current
    obtain ⟨advert', other⟩ := (adverts a w).mp current
    obtain rfl := Option.some.inj (advert.symm.trans advert')
    exact other mine
  have gone' : ∀ {t tr tr'}, σ.tran t = some tr → tr.client = c → τ.tran t ≠ some tr' := by
    intro t tr tr' found mine found'
    obtain ⟨y, live, _⟩ := inv'.own.owned t tr' found'
    rcases tran_of_trace trace found' with ⟨tr₀, found₀, place⟩ | ⟨_, filled, received⟩
    · obtain rfl := Option.some.inj (found.symm.trans found₀)
      have same := client_of_place place
      rw [← same, mine, left] at live
      cases live
    · exact absurd (closes.received received).1 (by decide)
  have services : ∀ s svc, τ.service s = some svc ↔
      σ.service s = some svc ∧ ∃ a v, σ.advert a = some v ∧ v.svc = s ∧ v.client ≠ c := by
    intro s svc
    constructor
    · intro current
      obtain ⟨a, v, advert, for_⟩ := advertised.trace inv trace s svc current (by simp) (by simp)
      obtain ⟨advert', other⟩ := (adverts a v).mp advert
      exact ⟨shrinks.service s svc current, a, v, advert', for_, other⟩
    · rintro ⟨service, a, v, advert, rfl, other⟩
      have current := (adverts a v).mpr ⟨advert, other⟩
      obtain ⟨y, live, member⟩ := registry'.offered a v current (by simp)
      obtain ⟨_, w, current', _, svc', service'⟩ := registry'.tree v.client y a live member
      obtain rfl := Option.some.inj (current.symm.trans current')
      obtain rfl := Option.some.inj (service.symm.trans (shrinks.service v.svc svc' service'))
      exact service'
  constructor
  case client => exact left
  case clients =>
      intro member
      obtain ⟨x, live⟩ := (registry'.mem_clients c).mp member
      rw [left] at live
      cases live
  case advert => exact adverts
  case withdrawn =>
      intro a v advert mine
      refine ⟨fun k y live member => ?_, fun s svc entries service ring member => ?_⟩
      · obtain ⟨_, w, current, _⟩ := registry'.tree k y a live member
        exact gone advert mine current
      · obtain ⟨w, current, _⟩ := Option.map_eq_some_iff.mp
          (rings.threaded.home_of_mem (h := .head s) ⟨svc, service⟩ ring member)
        exact gone advert mine current
  case tran =>
      intro t tr found mine
      refine ⟨Option.eq_none_iff_forall_ne_some.mpr fun _ => gone' found mine,
        fun k y live member => ?_,
        fun s svc entries service ring member => ?_⟩
      · obtain ⟨tr', found', _⟩ := inv'.own.mine k y t live member
        exact gone' found mine found'
      · obtain ⟨tr', found', _⟩ := Option.map_eq_some_iff.mp
          (rings.threaded.home_of_mem (h := .head s) ⟨svc, service⟩ ring member)
        exact gone' found mine found'
  case service => exact services
  case services =>
      intro s
      rw [registry'.mem_services, registry.mem_services]
      simp only [services, exists_and_right]
  case trees => exact shrinks.trees
  case waiting =>
      intro a v advert other
      exact (shrinks.waiting a v ((adverts a v).mpr ⟨advert, other⟩) other).2

/-- The event in which the read from client `c` fails. -/
def lost (env : Env) (c : ClientId) : Event := ⟨env, .ready c none⟩

theorem closes_lost {env : Env} {x : Client} (inv : Inv ⟨{}, σ⟩) (live : σ.client c = some x) :
    Closes σ (lost env c) c :=
  .inl ⟨none, x, rfl, (inv.registry.mem_clients c).mpr ⟨x, live⟩, live,
    .inr (.inr (.inr (.inl rfl)))⟩

theorem not_received_lost {env : Env} {k : ClientId} {handler : Handler} {filled : Bytes} :
    ¬Received σ (lost env c) k handler filled := by
  intro received
  obtain ⟨input, _, _, _, piece, source, _, _, _, _, _, got, _⟩ := received_elim received
  obtain ⟨_, rfl⟩ := Happening.ready.inj source
  cases got

theorem orderly_lost {env : Env} {x : Client} (live : σ.client c = some x)
    (serves : ∀ t tr a v, σ.tran t = some tr → tr.executor = some a → σ.advert a = some v →
      v.client = c → x.wait4 = some (.tran t)) : Orderly σ (lost env c) := by
  refine ⟨?_, ?_, ?_⟩
  · rintro k _ ⟨_, received, _⟩
    exact absurd received not_received_lost
  · rintro k _ t _ tr _ a _ ⟨_, received, _⟩
    exact absurd received not_received_lost
  · intro k _ closes y live' t _ tr found a executor v advert mine
    obtain ⟨_, source⟩ := closes.source
    obtain ⟨rfl, _⟩ := Happening.ready.inj source
    obtain rfl := Option.some.inj (live.symm.trans live')
    exact serves t tr a v found executor advert mine

/-- In an orderly run the deletion of a client and the withdrawal of an advertisement end. They end
in the same way with an allocator that checks, and when `del_service` cannot delete advertisements.
Of a deleted client nothing is left, and nothing else is taken away but the services only it
advertised. -/
theorem deletion_ends (reach : Reachable Orderly σ) :
    (∀ env c x, σ.client c = some x →
      (∀ t tr a v, σ.tran t = some tr → tr.executor = some a → σ.advert a = some v → v.client = c →
        x.wait4 = some (.tran t)) →
      ∃ τ, delClient env c σ = .ok (⟨⟩, τ) ∧ delClientWith .checked 1 env c σ = .ok (⟨⟩, τ) ∧
        Cleared σ τ c) ∧
    ∀ e c filled, Orderly σ e → Received σ e c .svrunadvertise filled →
      ∃ x b τ, σ.client c = some x ∧ x.input = some b ∧ step σ e = .ok τ ∧
        (svrunadvertiseWith .checked 1 c b (σ.begin c .svrunadvertise b filled)).map Prod.snd =
          .ok τ := by
  have inOrder := inOrder_of_reachable reach
  have inv : Inv ⟨{}, σ⟩ := inOrder.sound.all
  constructor
  · intro env c x live serves
    have closes : Closes σ (lost env c) c := closes_lost inv live
    have orderly : Orderly σ (lost env c) := orderly_lost live serves
    have removable : ∀ {φ τ}, Trace σ (lost env c) ⟨{}, σ⟩ ⟨φ, τ⟩ → Removable φ τ :=
      fun trace => (inOrder.trace orderly trace).removable
    obtain ⟨τ, checked, done, shrinks⟩ :=
      delClient_total removable env closes (.inl rfl) .refl (.refl σ) live
    have trace : Trace σ (lost env c) ⟨{}, σ⟩ ⟨{}, τ⟩ :=
      delClient_trace inv closes (.inl rfl) live (.refl σ) done
    have advertised := advertised_of_reachable (reach.mono fun _ _ _ => trivial)
    have rings : Rings {} τ := (removable trace).rings
    exact ⟨τ, done, checked .checked Release.frees_checked 0,
      cleared_of_shrinks inv advertised closes trace rings (client_of_delClient done) shrinks⟩
  · intro e c filled orderly received
    obtain ⟨x, b, τ, live, into, done, checked⟩ := svrunadvertise_total
      (fun trace => (inOrder.trace orderly trace).removable) received
    exact ⟨x, b, τ, live, into, done, checked .checked Release.frees_checked 0⟩

open Scenario in
/-- Client 4, which executes a transaction, is deleted, and client 0 withdraws the service for which
another one waits. -/
theorem deletion_ends_working : ∃ σ x, Reachable Orderly σ ∧ σ.client 4 = some x ∧
    x.wait4 = some (.tran 16) ∧
    (∃ τ, delClient (.plain 0 0) 4 σ = .ok (⟨⟩, τ) ∧ delClientWith .checked 1 (.plain 0 0) 4 σ =
      .ok (⟨⟩, τ) ∧ Cleared σ τ 4) ∧
    ∃ y b τ, σ.client 0 = some y ∧ y.input = some b ∧ step σ (receive 0 (svcname 65) 0) = .ok τ ∧
      (svrunadvertiseWith .checked 1 0 b (σ.begin 0 .svrunadvertise b (svcname 65))).map Prod.snd =
        .ok τ := by
  obtain ⟨σ, reach, seen⟩ := reachable_of_permitted
    ([connect, connect, connect] ++ advertise 0 65 ++ advertise 4 66 ++ call 2 66 0 9 ++ work 4 ++
      call 2 65 0 10 ++ [receive 0 [TPTUADV] 0])
    (fun σ => decide ((σ.client 4).map Client.wait4 = some (some (.tran 16)) ∧
      KeepsExecutors σ (lost (.plain 0 0) 4) ∧ Orderly σ (receive 0 (svcname 65) 0) ∧
      received σ (receive 0 (svcname 65) 0) = some (0, .svrunadvertise, svcname 65))) true
    (show permitted Orderly _ _ = true by decide +kernel) (by decide +kernel)
  obtain ⟨waits, keeps, orderly, received⟩ := of_decide_eq_true seen
  obtain ⟨x, live, executing⟩ := Option.map_eq_some_iff.mp waits
  have inv : Inv ⟨{}, σ⟩ := (inOrder_of_reachable reach).sound.all
  have serves : ∀ t tr a v, σ.tran t = some tr → tr.executor = some a → σ.advert a = some v →
      v.client = 4 → x.wait4 = some (.tran t) := fun t tr a v found executor advert mine =>
    keeps.deleted 4 ((inv.registry.mem_clients 4).mpr ⟨x, live⟩) (closes_lost inv live) x live t
      ((inv.own.mem_transactions t).mpr ⟨tr, found⟩) tr found a executor v advert mine
  exact ⟨σ, x, reach, live, executing, (deletion_ends reach).1 (.plain 0 0) 4 x live serves,
    (deletion_ends reach).2 _ 0 (svcname 65) orderly received⟩

open Scenario in
/-- The queue of service 12 has been left with an advertisement that client 0 no longer has. When
client 2 is deleted, `del_service` hands that advertisement to `del_advertisement` a second time. -/
theorem deletion_frees_twice : ∃ σ,
    run .start ([connect, connect] ++ advertise 0 65 ++ advertise 2 65 ++ advertise 2 66 ++
      call 0 65 0 9 ++ work 0 ++ unadvertise 0 65 ++ advertise 0 66 ++ work 0 ++ work 2 ++
      giveBack 2 2 0 ++ work 0 ++ [hangUp 0]) = .ok σ ∧ Reachable anyStep σ ∧ 2 ∈ σ.clients ∧
    σ.links.p2 (.head 12) = .adv 24 ∧ σ.advert 24 = none ∧
    delClient (.plain 0 0) 2 σ = .error .useAfterFree := by
  obtain ⟨σ, execution, reach, seen⟩ := reachable_of_outcome
    ([connect, connect] ++ advertise 0 65 ++ advertise 2 65 ++ advertise 2 66 ++
      call 0 65 0 9 ++ work 0 ++ unadvertise 0 65 ++ advertise 0 66 ++ work 0 ++ work 2 ++
      giveBack 2 2 0 ++ work 0 ++ [hangUp 0])
    (fun σ => decide (2 ∈ σ.clients ∧ σ.links.p2 (.head 12) = .adv 24 ∧ σ.advert 24 = none ∧
      fault (delClient (.plain 0 0) 2 σ) = some .useAfterFree)) true (by decide +kernel)
  obtain ⟨connected, first, freed, dies⟩ := of_decide_eq_true seen
  exact ⟨σ, execution, reach, connected, first, freed, fault_eq_some_iff.mp dies⟩

end Switchboard
end Xatmi
