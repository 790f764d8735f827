import Xatmi.Switchboard.Parking
import Xatmi.Switchboard.Progress

/-!
# Where the switchboard can die

An assertion fails only when `svriowait` is called for a client that is being read from, or with a
null buffer, and an entry of a wait queue is mistaken only where `OFFSET` is applied to it. As long
as no transaction is dispatched twice the only such failure is that of a `TPTRETN` with a negative
length.
-/

namespace Xatmi
namespace Switchboard

open Program Relation

variable {f : Fault} {σ : State}

/-! ## Code that only follows pointers -/

section

variable (safe : Fault.useAfterFree ≠ f)

include safe

theorem avoids_readClient (c : ClientId) : Avoids f (readClient c) := Avoids.demand safe

theorem avoids_readService (s : ServiceId) : Avoids f (readService s) := Avoids.demand safe

theorem avoids_readAdvert (a : AdvertId) : Avoids f (readAdvert a) := Avoids.demand safe

theorem avoids_readTran (t : TranId) : Avoids f (readTran t) := Avoids.demand safe

theorem avoids_readBuf (b : BufId) : Avoids f (readBuf b) := Avoids.demand safe

theorem avoids_modifyClient (c : ClientId) (update : Client → Client) :
    Avoids f (modifyClient c update) :=
  (avoids_readClient safe c).bind fun _ => .modify _

theorem avoids_modifyService (s : ServiceId) (update : Service → Service) :
    Avoids f (modifyService s update) :=
  (avoids_readService safe s).bind fun _ => .modify _

theorem avoids_modifyTran (t : TranId) (update : Transaction → Transaction) :
    Avoids f (modifyTran t update) :=
  (avoids_readTran safe t).bind fun _ => .modify _

theorem avoids_tpreallocWith (granted : Bool) (b : BufId) (size : Int) :
    Avoids f (tpreallocWith granted b size) :=
  (avoids_readBuf safe b).bind fun _ =>
    .ite (.pure _) (.ite (.bind .get fun _ => (Avoids.set _).bind fun _ => .pure _) (.pure _))

theorem avoids_tprealloc (b : BufId) (size : Int) : Avoids f (tprealloc b size) :=
  avoids_tpreallocWith safe true b size

theorem avoids_tpfree (b : BufId) : Avoids f (tpfree b) :=
  (avoids_readBuf safe b).bind fun _ => .modify _

theorem avoids_qisempty (s : ServiceId) : Avoids f (qisempty s) :=
  (avoids_readService safe s).bind fun _ => .bind .get fun _ => .pure _

theorem avoids_qfirst (s : ServiceId) : Avoids f (qfirst s) :=
  (avoids_readService safe s).bind fun _ => .bind .get fun _ => .pure _

theorem avoids_qappend (s : ServiceId) (n : Node) : Avoids f (qappend s n) :=
  .bind .get fun _ => .ite (.set _) (.throw safe)

theorem avoids_qdelete (n : Node) : Avoids f (qdelete n) :=
  .bind .get fun _ => .ite (.set _) (.throw safe)

theorem avoids_svrwrite (c : ClientId) (bytes : Bytes) : Avoids f (svrwrite c bytes) :=
  (avoids_readClient safe c).bind fun _ => .modify _

theorem avoids_svrwrites (c : ClientId) (val : BitVec 16) : Avoids f (svrwrites c val) :=
  (avoids_svrwrite safe c _).bind fun _ => avoids_svrwrite safe c _

theorem avoids_svrwritel (c : ClientId) (val : BitVec 64) : Avoids f (svrwritel c val) :=
  (avoids_svrwrites safe c _).bind fun _ => avoids_svrwrites safe c _

theorem avoids_clearWorker (tr : Transaction) (t : TranId) : Avoids f (clearWorker tr t) := by
  unfold clearWorker
  split
  · exact .pure _
  · exact (avoids_readAdvert safe _).bind fun _ => avoids_modifyClient safe _ _

theorem avoids_delTransaction (t : TranId) : Avoids f (delTransaction t) :=
  (avoids_readTran safe t).bind fun _ => (avoids_modifyClient safe _ _).bind fun _ =>
    (avoids_qdelete safe _).bind fun _ => (avoids_modifyClient safe _ _).bind fun _ =>
      (avoids_clearWorker safe _ _).bind fun _ => (avoids_tpfree safe _).bind fun _ => .modify _

theorem avoids_queueReply (t : TranId) : Avoids f (queueReply t) :=
  (avoids_readTran safe t).bind fun _ => avoids_modifyClient safe _ _

theorem avoids_newAdvertisement (c : ClientId) (svcname : Bytes) (func : BitVec 64) :
    Avoids f (newAdvertisement c svcname func) := by
  have made : Avoids f (newService svcname) := by
    refine .bind .get fun μ => ?_
    split
    · exact .pure _
    · exact (Avoids.set _).bind fun _ => .pure _
  refine made.bind fun s => .bind .get fun μ => ?_
  split
  · exact .pure _
  · exact (Avoids.set _).bind fun _ => (avoids_modifyClient safe _ _).bind fun _ => .pure _

theorem avoids_removeFromWaitq (p : AdvertId) : Avoids f (removeFromWaitq p) :=
    avoids_qdelete safe _

theorem avoids_addToWaitq (p : AdvertId) : Avoids f (addToWaitq p) :=
  (avoids_readAdvert safe p).bind fun _ => (avoids_modifyService safe _ _).bind fun _ =>
    avoids_qappend safe _ _

end

theorem avoids_observe (o : Obs) : Avoids f (observe o) := .modify _

theorem avoids_tpalloc (size : Int) : Avoids f (tpalloc size) :=
  .ite (.pure _) (.bind .get fun _ => (Avoids.set _).bind fun _ => .pure _)

theorem avoids_newTransaction (env : Env) (c : ClientId) (flags : BitVec 64)
    (svc : Option ServiceId) (len : Int) : Avoids f (newTransaction env c flags svc len) := by
  unfold newTransaction
  split
  · exact .pure _
  · refine (avoids_tpalloc len).bind fun data => ?_
    split
    · exact .pure _
    · exact .bind .get fun _ => (Avoids.set _).bind fun _ => .pure _

/-! ## Calls of `svriowait` -/

section

variable (safe : Fault.useAfterFree ≠ f)

include safe

theorem svriowait_error {c : ClientId} {b : BufId} {handler : Handler}
    {func : ClientId → BufId → M PUnit} (faults : svriowait c b handler func σ = .error f) :
    ∃ x, σ.client c = some x ∧ (¬x.Idle ∨
      σ.buf b = some [] ∧ func c b (σ.observe (.handled c handler [])) = .error f) := by
  simp only [svriowait, bind_error_iff, avoids_readClient safe, readClient_ok_iff, false_or,
    and_assoc, exists_and_left, exists_eq_left] at faults
  obtain ⟨x, live, rest⟩ := faults
  refine ⟨x, live, ?_⟩
  split at rest
  · rename_i busy
    left
    rintro ⟨handler, input, used⟩
    simp [handler, input, used] at busy
  · right
    simp only [bind_error_iff, avoids_readBuf safe, readBuf_ok_iff, false_or, and_assoc,
      exists_and_left, exists_eq_left] at rest
    obtain ⟨contents, room, rest⟩ := rest
    split at rest
    · exact absurd rest (avoids_modifyClient safe c _ _)
    · rename_i empty
      obtain rfl : contents = [] := by simpa using empty
      simp only [bind_error_iff, avoids_observe, observe_ok_iff, false_or, exists_eq_left,
        exists_const] at rest
      exact ⟨room, rest⟩

theorem svrNextCommand_error {c : ClientId} (faults : svrNextCommand c σ = .error f) :
    ∃ x, σ.client c = some x ∧ ¬x.Idle := by
  obtain ⟨data, μ, allocated, rest⟩ := (avoids_tpalloc 1).later faults
  rcases tpalloc_ok_iff.mp allocated with ⟨impossible, _⟩ | ⟨_, rfl, rfl⟩
  · omega
  · obtain ⟨x, live, busy | ⟨empty, _⟩⟩ := svriowait_error safe rest
    · exact ⟨x, live, busy⟩
    · have room : (σ.allocBuf (List.replicate (1 : Int).toNat 0)).buf σ.next = some [0] :=
        if_pos rfl
      cases Option.some.inj (room.symm.trans empty)

theorem sndReply_error {t : TranId} (faults : sndReply t σ = .error f) :
    ∃ tr x, σ.tran t = some tr ∧ σ.client tr.client = some x ∧ ¬x.Idle := by
  have last : Avoids f (delTransaction t) := avoids_delTransaction safe t
  simp only [sndReply, sndReplyWith, delTransactionWith_plain,
    svrwriteb, bind_error_iff, avoids_readTran safe, avoids_readBuf safe,
    avoids_svrwrite safe, avoids_svrwrites safe, avoids_svrwritel safe, avoids_modifyClient safe,
    last, readTran_ok_iff, readBuf_ok_iff, svrwrite_ok_iff, svrwrites_ok_iff, svrwritel_ok_iff,
    false_or, or_false, and_false, exists_false, and_assoc, exists_and_left, exists_eq_left,
    exists_const] at faults
  obtain ⟨tr, found, _, _, _, _, _, _, _, stuck⟩ := faults
  obtain ⟨x, live, busy⟩ := svrNextCommand_error safe stuck
  exact ⟨tr, x, found, live, busy⟩

theorem sendToServer_error {env : Env} {a : AdvertId} {t : TranId}
    (faults : sendToServer env a t σ = .error f) :
    ∃ v x, σ.advert a = some v ∧ σ.client v.client = some x ∧ ¬x.Idle := by
  have removed : ∀ xs : List AdvertId, Avoids f (xs.forM removeFromWaitq) :=
    Avoids.forM (avoids_removeFromWaitq safe)
  simp only [sendToServer, bind_error_iff, avoids_readAdvert safe, avoids_readClient safe,
    removed _ _, avoids_modifyClient safe, avoids_modifyTran safe, avoids_observe,
    avoids_svrwrite safe, avoids_svrwrites safe, avoids_svrwritel safe, avoids_readTran safe,
    avoids_readService safe, avoids_readBuf safe, readAdvert_ok_iff, readClient_ok_iff,
    forM_removeFromWaitq_ok_iff, modifyClient_ok_iff, modifyTran_ok_iff, observe_ok_iff,
    svrwrite_ok_iff, svrwrites_ok_iff, svrwritel_ok_iff, readTran_ok_iff, readService_ok_iff,
    readBuf_ok_iff, false_or, and_assoc, exists_and_left, exists_eq_left, exists_const] at faults
  obtain ⟨v, advert, x, live, _, _, _, _, _, _, _, _, _, _, _, _, _, _, _, stuck⟩ := faults
  obtain ⟨y, live', busy⟩ := svrNextCommand_error safe stuck
  obtain ⟨z, live'', rfl⟩ := change_eq_some_iff.mp live'
  obtain rfl := Option.some.inj (live.symm.trans live'')
  rw [if_pos rfl] at busy
  exact ⟨v, x, advert, live, busy⟩

end

/-! ## Runs that dispatch no transaction twice -/

/-- The invariants of such a run, also in the middle of a step. -/
structure Sound (κ : Conf) : Prop where
  all : Inv κ
  parking : Parking κ.phase κ.state

/-- A failed assertion, or an entry of a wait queue taken for one of the other kind. -/
def Fault.Misuse (f : Fault) : Prop :=
  f = .assertion ∨ f = .wrongType

theorem Fault.Misuse.safe (misuse : f.Misuse) : Fault.useAfterFree ≠ f := by
  rcases misuse with rfl | rfl <;> decide

theorem Fault.Misuse.ends (misuse : f.Misuse) : Fault.diverges ≠ f := by
  rcases misuse with rfl | rfl <;> decide

theorem Fault.Misuse.null (misuse : f.Misuse) : Fault.nullPointer ≠ f := by
  rcases misuse with rfl | rfl <;> decide

namespace Sound

variable {σ₀ : State} {e : Event} {φ : Phase} {κ κ' : Conf}

theorem effect (sound : Sound κ) (before : Parking {} σ₀) (new : PicksNew σ₀ e)
    (eff : Effect σ₀ e κ κ') : Sound κ' :=
  ⟨sound.all.effect eff, sound.parking.effect before sound.all new eff⟩

theorem trace (sound : Sound κ) (before : Parking {} σ₀) (new : PicksNew σ₀ e)
    (trace : Trace σ₀ e κ κ') : Sound κ' := by
  induction trace with
  | refl => exact sound
  | tail _ eff ih => exact ih.effect before new eff

theorem rings (sound : Sound ⟨φ, σ⟩) : Rings φ σ := sound.parking.rings

/-- Whoever waits for a finished transaction is not being read from. -/
theorem idle_of_finished (sound : Sound ⟨φ, σ⟩) {t : TranId} (fin : φ.fin = some t) {c : ClientId}
    {x : Client} (live : σ.client c = some x)
    (waits : x.wait4 = some .any ∨ x.wait4 = some (.tran t)) :
    x.Idle := by
  have dispatches : Dispatches φ σ := sound.all.dispatches
  by_contra busy
  have reading : x.handler ≠ none := fun resting => busy ((sound.all.readers c x live).idle resting)
  obtain ⟨noAny, serves⟩ := dispatches.active c x live (.inl reading)
  rcases waits with any | own
  · exact noAny any
  · obtain ⟨a, seen⟩ := serves t own
    exact sound.parking.finished t c x a fin live own seen

end Sound

section

variable {σ₀ : State} {e : Event} {φ : Phase} (before : Parking {} σ₀) (new : PicksNew σ₀ e)
  (misuse : f.Misuse)

include before new misuse

/-! ## Deletion -/

theorem delService_ne_error {depth : Nat} {a : AdvertId} {v : Advert} {svc : Service}
    (sound : Sound ⟨φ, σ⟩) (det : φ.det = some a) (noOrphan : φ.orphan = none)
    (advert : σ.advert a = some v) (service : σ.service v.svc = some svc)
    (unadvertised : σ.someoneAdvertises svc.svcname = false) :
    delService (delAdvertisement depth) v.svc σ ≠ .error f := by
  have orphans : Effect σ₀ e ⟨φ, σ⟩ ⟨{ φ with orphan := some v.svc }, σ⟩ :=
    .orphan det noOrphan advert service unadvertised
  have orphaned := sound.effect before new orphans
  have test : ∀ {s s' : State} {goes : Bool},
      (do let empty ← qisempty v.svc; pure !empty : M Bool) s = .ok (goes, s') → s' = s :=
    fun tested => (not_qisempty_ok_iff.mp tested).2.2
  have tests : Avoids f (do let empty ← qisempty v.svc; pure !empty : M Bool) :=
    (avoids_qisempty misuse.safe _).bind fun _ => .pure _
  intro faults
  simp only [delService, delServiceWith, delTransactionWith_plain, Release.plain_service,
    bind_error_iff, avoids_readService misuse.safe, Avoids.get _,
    readService_ok_iff, get_ok_iff, false_or, and_assoc, exists_and_left, exists_eq_left] at faults
  obtain ⟨svc', service', rest⟩ := faults
  obtain rfl := Option.some.inj (service.symm.trans service')
  split at rest
  · rename_i flag
    rcases bind_error_iff.mp rest with loop | ⟨_, _, _, dropped⟩
    · obtain ⟨s, ⟨sofar, queued⟩, faults | ⟨tested, faults⟩⟩ := whileLoop_error
        (motive := fun s => Trace σ₀ e ⟨{ φ with orphan := some v.svc }, σ⟩
          ⟨{ φ with orphan := some v.svc }, s⟩ ∧ s.Flagged v.svc)
        misuse.ends loop ⟨.refl, svc, service, flag⟩ test (by
          rintro s s' _ ⟨sofar, queued⟩ tested worked
          have nonempty := (not_qisempty_ok_iff.mp tested).2.1.mp rfl
          simp only [bind_ok_iff, qfirst_ok_iff, nodeTran_ok_iff, delTransaction_ok_iff, and_assoc,
            exists_and_left, exists_eq_left] at worked
          obtain ⟨_, t, front, tr, deletable, rfl⟩ := worked
          exact ⟨sofar.tail (.sweep rfl queued nonempty front deletable), queued⟩)
      · exact tests s faults
      · have nonempty := (not_qisempty_ok_iff.mp tested).2.1.mp rfl
        obtain ⟨svc', service', flag'⟩ := queued
        obtain ⟨t, front⟩ :=
          (orphaned.trace before new sofar).rings.first_tran service' flag' nonempty
        simp only [bind_error_iff, avoids_qfirst misuse.safe, qfirst_ok_iff, false_or, and_assoc,
          exists_and_left, exists_eq_left, front, nodeTran, Avoids.pure _ _,
          avoids_delTransaction misuse.safe, and_false, exists_false] at faults
    · exact absurd dropped (Avoids.modify _ _)
  · rename_i flag
    rcases bind_error_iff.mp rest with loop | ⟨_, _, _, dropped⟩
    · have empty : σ.EmptyQueue v.svc := by
        by_contra nonempty
        obtain ⟨b, w, _, advert', same, linked⟩ :=
          orphaned.rings.first_advert service ((Bool.not_eq_true _).mp flag) nonempty
        have only := (orphaned.all.registry.orphan v.svc rfl).2 b w advert' same
        exact linked (orphaned.parking.rings.det b w only advert')
      have stays : ∀ {s}, s = σ →
          (do let empty ← qisempty v.svc; pure !empty : M Bool) s ≠ .ok (true, s) := by
        rintro s rfl tested
        exact (not_qisempty_ok_iff.mp tested).2.1.mp rfl empty
      obtain ⟨s, same, faults | ⟨tested, _⟩⟩ :=
        whileLoop_error (motive := fun s => s = σ) misuse.ends
          loop rfl test fun same tested _ => absurd tested (stays same)
      · exact tests s faults
      · exact stays same tested
    · exact absurd dropped (Avoids.modify _ _)

theorem delAdvertisement_ne_error {depth : Nat} {a : AdvertId} {c : ClientId} {x : Client}
    (sound : Sound ⟨φ, σ⟩) (noDet : φ.det = none) (noOrphan : φ.orphan = none)
    (noFin : φ.fin = none) (live : σ.client c = some x) (mine : a ∈ x.adverts)
    (reason : φ.closing = some c ∧ φ.settled = true ∨
      φ.run = some c ∧ Unadvertises σ₀ e c a ∧ SameTables σ₀ σ) :
    delAdvertisement depth a σ ≠ .error f := by
  intro faults
  cases depth with
  | zero => exact Avoids.throw misuse.ends _ faults
  | succ depth =>
      simp only [← delAdvertisementWith_plain, delAdvertisementWith, delServiceWith_plain,
        Release.plain_advert, bind_error_iff, avoids_readAdvert misuse.safe,
        avoids_qdelete misuse.safe, avoids_modifyClient misuse.safe, avoids_readService misuse.safe,
        Avoids.get _, readAdvert_ok_iff, qdelete_ok_iff, modifyClient_ok_iff, readService_ok_iff,
        get_ok_iff, false_or, and_assoc, exists_and_left, exists_eq_left, exists_const] at faults
      obtain ⟨v, advert, unlinkable, _, svc, service, rest⟩ := faults
      have detaches : Effect σ₀ e ⟨φ, σ⟩ ⟨{ φ with det := some a }, σ.detach a v.client⟩ :=
        .detach noDet noOrphan live mine reason advert unlinkable noFin
      split at rest
      · exact Avoids.modify _ _ rest
      · rename_i unadvertised
        rcases bind_error_iff.mp rest with faults | ⟨_, _, _, dropped⟩
        · exact delService_ne_error before new misuse (sound.effect before new detaches)
            rfl noOrphan advert service ((Bool.not_eq_true _).mp unadvertised) faults
        · exact Avoids.modify _ _ dropped

theorem failWork_ne_error {c : ClientId} (sound : Sound ⟨{ closing := some c }, σ⟩)
    (same : SameTables σ₀ σ) : failWork c σ ≠ .error f := by
  intro faults
  simp only [failWork, failWorkWith, failTransactionWith_plain,
    bind_error_iff, avoids_readClient misuse.safe, readClient_ok_iff, false_or,
    and_assoc, exists_and_left, exists_eq_left] at faults
  obtain ⟨x, live, rest⟩ := faults
  rcases serves : x.wait4 with _ | t | _
  · simp only [serves] at rest
    exact Avoids.pure _ _ rest
  · simp only [serves, bind_error_iff, avoids_readTran misuse.safe, readTran_ok_iff, false_or,
      and_assoc, exists_and_left, exists_eq_left] at rest
    obtain ⟨tr, found, rest⟩ := rest
    cases executor : tr.executor with
    | none =>
        simp only [executor] at rest
        exact Avoids.pure _ _ rest
    | some a =>
        simp only [executor, bind_error_iff, avoids_readAdvert misuse.safe, readAdvert_ok_iff,
          false_or, and_assoc, exists_and_left, exists_eq_left] at rest
        obtain ⟨v, advert, rest⟩ := rest
        split at rest
        · rename_i mine
          have fails : Effect σ₀ e ⟨{ closing := some c }, σ⟩
              ⟨{ closing := some c, settled := true, fin := some t }, σ.finish c t fun tr =>
                { tr with rval := TPERRNO, rcode := BitVec.ofNat 64 TPESVCERR }⟩ :=
            .fail rfl rfl live serves found executor advert mine rfl same
          simp only [failTransaction, failTransactionWith, sndReplyWith_plain,
    bind_error_iff, avoids_modifyClient misuse.safe,
            avoids_modifyTran misuse.safe, avoids_readTran misuse.safe,
            avoids_readClient misuse.safe, modifyClient_ok_iff, modifyTran_ok_iff, readTran_ok_iff,
            readClient_ok_iff, false_or, and_assoc, exists_and_left, exists_eq_left,
            exists_const] at rest
          obtain ⟨_, _, tr', found', k, owner, rest⟩ := rest
          split at rest
          · rename_i waits
            obtain ⟨tr'', y, found'', live', busy⟩ := sndReply_error misuse.safe rest
            obtain rfl := Option.some.inj (found'.symm.trans found'')
            obtain rfl := Option.some.inj (owner.symm.trans live')
            exact busy ((sound.effect before new fails).idle_of_finished rfl live' (.inr waits))
          · exact avoids_queueReply misuse.safe t _ rest
        · exact Avoids.pure _ _ rest
  · simp only [serves] at rest
    exact Avoids.pure _ _ rest

theorem delAdverts_ne_error {env : Env} {c : ClientId} {bound : Nat}
    (sound : Sound ⟨{ closing := some c, settled := true }, σ⟩) :
    delAdverts env c bound σ ≠ .error f := by
  intro loop
  obtain ⟨s, sofar, faults | ⟨_, faults⟩⟩ := whileLoop_error
    (motive := fun s => Trace σ₀ e ⟨{ closing := some c, settled := true }, σ⟩
      ⟨{ closing := some c, settled := true }, s⟩)
    misuse.ends loop .refl (fun tested => (client_ok_iff.mp tested).choose_spec.2.2) (by
      intro s s' _ sofar _ worked
      simp only [bind_ok_iff, readClient_ok_iff, and_assoc, exists_and_left,
        exists_eq_left] at worked
      obtain ⟨x, live, rest⟩ := worked
      cases root : env.walk x.adverts with
      | nil =>
          simp only [root] at rest
          obtain ⟨_, rfl⟩ := pure_ok_iff.mp rest
          exact sofar
      | cons a others =>
          simp only [root] at rest
          have mine : a ∈ x.adverts := (env.walk_perm x.adverts).mem_iff.mp (by simp [root])
          exact sofar.trans (delAdvertisement_trace (sound.all.trace sofar) rfl rfl live mine rfl
            (.inl ⟨rfl, rfl⟩) rest))
  · exact (avoids_readClient misuse.safe c).bind (fun _ => .pure _) s faults
  · simp only [bind_error_iff, avoids_readClient misuse.safe, readClient_ok_iff, false_or,
      and_assoc, exists_and_left, exists_eq_left] at faults
    obtain ⟨x, live, rest⟩ := faults
    cases root : env.walk x.adverts with
    | nil =>
        simp only [root] at rest
        exact Avoids.pure _ _ rest
    | cons a others =>
        simp only [root] at rest
        have mine : a ∈ x.adverts := (env.walk_perm x.adverts).mem_iff.mp (by simp [root])
        exact delAdvertisement_ne_error before new misuse (sound.trace before new sofar) rfl
          rfl rfl live mine (.inl ⟨rfl, rfl⟩) rest

theorem delClient_ne_error {env : Env} {c : ClientId} {x : Client} (sound : Sound ⟨φ, σ⟩)
    (closes : Closes σ₀ e c) (quiet : φ = {} ∨ φ = { run := some c }) (live : σ.client c = some x)
    (same : SameTables σ₀ σ) : delClient env c σ ≠ .error f := by
  have closed : Effect σ₀ e ⟨φ, σ⟩ ⟨{ closing := some c }, σ⟩ := .close closes quiet live
  have closing := sound.effect before new closed
  have purged : ∀ queue bound, Avoids f (delQueue c queue bound) := by
    intro queue bound
    refine Avoids.whileLoop misuse.ends ((avoids_readClient misuse.safe c).bind fun _ => .pure _)
      ((avoids_readClient misuse.safe c).bind fun x => ?_)
    split
    · exact avoids_delTransaction misuse.safe _
    · exact .pure _
  intro faults
  rcases bind_error_iff.mp faults with failed | ⟨_, σ₁, done, rest⟩
  · exact failWork_ne_error before new misuse closing same failed
  · obtain ⟨_, _, read, rest'⟩ := Avoids.get.later rest
    obtain ⟨rfl, rfl⟩ := get_ok_iff.mp read
    rcases bind_error_iff.mp rest' with withdrawn | ⟨_, _, _, purges⟩
    · exact delAdverts_ne_error before new misuse
        (closing.trace before new (failWork_trace same done)) withdrawn
    · exact ((purged _ _).bind fun _ => (purged _ _).bind fun _ => .modify _) _ purges

/-! ## Handlers -/

omit before new in
theorem answer_ne_error {c : ClientId} {x : Client} (live : σ.client c = some x) (idle : x.Idle) :
    svrNextCommand c σ ≠ .error f := by
  intro faults
  obtain ⟨y, live', busy⟩ := svrNextCommand_error misuse.safe faults
  obtain rfl := Option.some.inj (live.symm.trans live')
  exact busy idle

theorem sendToWorker_ne_error {env : Env} {c : ClientId} {b : BufId} {t : TranId} {x : Client}
    (sound : Sound ⟨{ run := some c, up := some t }, σ⟩) (live : σ.client c = some x)
    (idle : x.Idle) (last : x.requests.getLast? = some t) : sendToWorker env c b σ ≠ .error f := by
  intro faults
  rcases bind_error_iff.mp faults with stuck | ⟨_, μ, armed, rest⟩
  · exact answer_ne_error misuse live idle stuck
  obtain ⟨_, rfl⟩ := svrNextCommand_ok_iff.mp armed
  have sound' := sound.effect before new (.next rfl live idle)
  have parking : Parking { run := some c, up := some t } (σ.nextCommand c) := sound'.parking
  simp only [bind_error_iff, avoids_readClient misuse.safe, readClient_ok_iff, false_or, and_assoc,
    exists_and_left, exists_eq_left] at rest
  obtain ⟨y, live', rest⟩ := rest
  have requests : y.requests.getLast? = some t := by
    obtain ⟨z, live'', rfl⟩ := change_eq_some_iff.mp live'
    obtain rfl := Option.some.inj (live.symm.trans live'')
    simpa using last
  simp only [requests, bind_error_iff, avoids_readTran misuse.safe, avoids_readService misuse.safe,
    avoids_qisempty misuse.safe, readTran_ok_iff, readService_ok_iff, qisempty_ok_iff, false_or,
    and_assoc, exists_and_left, exists_eq_left] at rest
  obtain ⟨tr, found, svc, service, _, rest⟩ := rest
  split at rest
  · rename_i waiting
    simp only [Bool.and_eq_true, Bool.not_eq_eq_eq_not, Bool.not_true, decide_eq_false_iff_not]
      at waiting
    obtain ⟨a, v, first, advert, _, linked⟩ := sound'.rings.first_advert service waiting.2 waiting.1
    simp only [bind_error_iff, avoids_qfirst misuse.safe, qfirst_ok_iff, first, nodeAdvert,
      Avoids.pure _ _, pure_ok_iff, false_or, and_assoc, exists_and_left, exists_eq_left] at rest
    obtain ⟨v', z, advert', worker, busy⟩ := sendToServer_error misuse.safe rest.2
    obtain rfl := Option.some.inj (advert.symm.trans advert')
    exact busy (parking.resting v.client z (.inl ⟨a, v, advert, rfl, linked⟩) worker).idle
  · exact (avoids_modifyService misuse.safe _ _).bind (fun _ => avoids_qappend misuse.safe _ _) _
      rest

theorem accept_ne_error {c : ClientId} {b : BufId} {x : Client} {svc : Service} {tr : Transaction}
    {len : Nat} {old bytes : Bytes} (sound : Sound ⟨{ run := some c, held := some b }, σ⟩)
    (live : σ.client c = some x) (idle : x.Idle) (service : σ.service tr.svc = some svc)
    (client : tr.client = c) (data : tr.data = σ.next) (unassigned : tr.executor = none)
    (cd : tr.cd = e.env.cd) (asked : ∃ filled, Received σ₀ e c .svracall filled)
    (short : len < 2 ^ 31) (freed : (σ.submit tr len).buf b = some old) :
    svriowait c tr.data .sendToWorker (sendToWorker e.env)
      (((σ.submit tr len).freeBuf b).write c bytes) ≠ .error f := by
  intro faults
  have live' : (σ.submit tr len).client c =
      some { x with requests := x.requests ++ [σ.next + 1] } :=
    change_eq_some_iff.mpr ⟨x, live, by simp [client]⟩
  have submits : Effect σ₀ e ⟨{ run := some c, held := some b }, σ⟩
      ⟨{ run := some c, held := some b, up := some (σ.next + 1) }, σ.submit tr len⟩ :=
    .submit rfl rfl live idle service client data unassigned cd rfl asked short
  have writes : Effect σ₀ e ⟨{ run := some c, up := some (σ.next + 1) },
      (σ.submit tr len).freeBuf b⟩ ⟨{ run := some c, up := some (σ.next + 1) },
        ((σ.submit tr len).freeBuf b).write c bytes⟩ :=
    .write live' rfl
  obtain ⟨y, live'', busy | ⟨_, called⟩⟩ := svriowait_error misuse.safe faults
  · obtain rfl := Option.some.inj (live'.symm.trans live'')
    exact busy idle
  · have calls : Effect σ₀ e ⟨{ run := some c, up := some (σ.next + 1) },
        ((σ.submit tr len).freeBuf b).write c bytes⟩ ⟨_, _⟩ :=
      .call rfl (.inr (.inl rfl))
    have uploaded := sound.trace before new
      (.head submits (.head (.release rfl freed) (.head writes (.single calls))))
    exact sendToWorker_ne_error before new misuse uploaded live' idle (by simp) called

theorem svracall_ne_error {c : ClientId} {b : BufId} {x : Client}
    (sound : Sound ⟨{ run := some c, held := some b }, σ⟩) (live : σ.client c = some x)
    (idle : x.Idle) (asked : ∃ filled, Received σ₀ e c .svracall filled) :
    svracall e.env c b σ ≠ .error f := by
  intro faults
  simp only [svracall, bind_error_iff, avoids_readBuf misuse.safe, Avoids.get _,
    avoids_newTransaction _ _ _ _ _ _, avoids_tpfree misuse.safe, readBuf_ok_iff, get_ok_iff,
    newTransaction_ok_iff, tpfree_ok_iff, false_or, and_assoc, exists_and_left, exists_eq_left,
    exists_const] at faults
  obtain ⟨contents, room, t, τ, made, freed, rest⟩ := faults
  rcases made with ⟨_, rfl, rfl⟩ | ⟨s, service, _, rfl, rfl⟩
  · simp only [svrwriteb, bind_error_iff, avoids_svrwrite misuse.safe, avoids_svrwrites misuse.safe,
      svrwrite_ok_iff, svrwrites_ok_iff, false_or, and_assoc, exists_and_left, exists_eq_left,
      exists_const] at rest
    refine answer_ne_error misuse ?_ idle rest.2.2
    exact live
  · simp only [svrwriteb, bind_error_iff, avoids_modifyClient misuse.safe,
      avoids_readTran misuse.safe, avoids_svrwrite misuse.safe, avoids_svrwrites misuse.safe,
      modifyClient_ok_iff, readTran_ok_iff, svrwrite_ok_iff, svrwrites_ok_iff, false_or, and_assoc,
      exists_and_left, exists_eq_left, exists_const, State.write_write] at rest
    obtain ⟨_, tr, found, _, _, waits⟩ := rest
    obtain ⟨_, made⟩ | ⟨different, _⟩ := put_eq_some_iff.mp found
    · obtain rfl := Option.some.inj made
      obtain ⟨svc, current, _⟩ := sound.all.registry.fndService_eq_some_iff.mp service
      obtain ⟨old, freed⟩ := freed
      have short := tolong_lt (contents.drop XATMI_SERVICE_NAME_LENGTH)
      exact accept_ne_error before new misuse sound live idle current rfl rfl rfl rfl asked
        (by omega) freed waits
    · exact absurd rfl different

omit before new in
theorem svrgetrply_ne_error {c : ClientId} {b : BufId} {x : Client}
    (sound : Sound ⟨{ run := some c, held := some b }, σ⟩) (live : σ.client c = some x)
    (idle : x.Idle) : svrgetrply c b σ ≠ .error f := by
  intro faults
  simp only [svrgetrply, bind_error_iff, avoids_readBuf misuse.safe, avoids_tpfree misuse.safe,
    avoids_readClient misuse.safe, Avoids.get _, readBuf_ok_iff, tpfree_ok_iff, readClient_ok_iff,
    get_ok_iff, false_or, and_assoc, exists_and_left, exists_eq_left, exists_const] at faults
  obtain ⟨contents, room, _, y, live', rest⟩ := faults
  obtain rfl := Option.some.inj (live.symm.trans live')
  have refuses : ∀ errno, senderrno c errno (σ.freeBuf b) ≠ .error f := by
    intro errno faults
    simp only [senderrno, svrwriteb, bind_error_iff, avoids_svrwrite misuse.safe,
      avoids_svrwrites misuse.safe, svrwrite_ok_iff, svrwrites_ok_iff, false_or, and_assoc,
      exists_and_left, exists_eq_left, exists_const] at faults
    refine answer_ne_error misuse ?_ idle faults.2.2
    exact live
  cases reply : (if tolong (contents.drop IOSHORT) &&& TPGETANY = 0 then
      (σ.freeBuf b).findCd x.replies (toshort contents) else x.replies.head?) with
  | some t =>
      simp only [reply] at rest
      have queued : t ∈ x.replies := by
        split at reply
        · exact mem_of_findCd reply
        · exact List.mem_of_head? reply
      obtain ⟨tr, y, found, owner, busy⟩ := sndReply_error misuse.safe rest
      obtain ⟨tr', found', mine⟩ :=
        sound.all.own.mine c x t live (by simp [Client.outstanding, queued])
      obtain rfl := Option.some.inj (found'.symm.trans found)
      rw [mine] at owner
      obtain rfl := Option.some.inj (live.symm.trans owner)
      exact busy idle
  | none =>
      simp only [reply] at rest
      cases awaited : (if tolong (contents.drop IOSHORT) &&& TPGETANY = 0 then
          ((σ.freeBuf b).findCd x.requests (toshort contents)).map Wait.tran
          else some Wait.any) with
      | none =>
          simp only [awaited] at rest
          exact refuses _ rest
      | some w =>
          simp only [awaited] at rest
          split at rest
          · exact refuses _ rest
          · exact avoids_modifyClient misuse.safe c _ _ rest

theorem part2_ne_error {c : ClientId} {b : BufId} {x : Client}
    (sound : Sound ⟨{ run := some c }, σ⟩) (live : σ.client c = some x) (idle : x.Idle)
    (asked : Returns σ₀ e c) : part2 c b σ ≠ .error f := by
  intro faults
  rcases bind_error_iff.mp faults with stuck | ⟨_, μ, armed, rest⟩
  · exact answer_ne_error misuse live idle stuck
  obtain ⟨_, rfl⟩ := svrNextCommand_ok_iff.mp armed
  have next : Effect σ₀ e ⟨{ run := some c }, σ⟩ ⟨{ run := some c }, σ.nextCommand c⟩ :=
    .next rfl live idle
  simp only [bind_error_iff, avoids_readClient misuse.safe, readClient_ok_iff, false_or, and_assoc,
    exists_and_left, exists_eq_left] at rest
  obtain ⟨y, live', rest⟩ := rest
  rcases serves : y.wait4 with _ | t | _
  · simp only [serves] at rest
    exact Avoids.throw misuse.null _ rest
  · simp only [serves, bind_error_iff, avoids_modifyClient misuse.safe,
      avoids_modifyTran misuse.safe, avoids_readTran misuse.safe, avoids_readClient misuse.safe,
      modifyClient_ok_iff, modifyTran_ok_iff, readTran_ok_iff, readClient_ok_iff, false_or,
      and_assoc, exists_and_left, exists_eq_left, exists_const] at rest
    obtain ⟨_, ⟨tr, found⟩, tr', found', k, owner, rest⟩ := rest
    have finishes : Effect σ₀ e ⟨{ run := some c }, σ.nextCommand c⟩
        ⟨{ run := some c, fin := some t }, (σ.nextCommand c).finish c t id⟩ :=
      .finish rfl rfl live' serves found asked
    split at rest
    · rename_i waiting
      simp only [Bool.or_eq_true, decide_eq_true_eq] at waiting
      obtain ⟨tr'', z, found'', live'', busy⟩ := sndReply_error misuse.safe rest
      obtain rfl := Option.some.inj (found'.symm.trans found'')
      obtain rfl := Option.some.inj (owner.symm.trans live'')
      exact busy ((sound.trace before new (.head next (.single finishes))).idle_of_finished
        rfl live'' waiting)
    · exact avoids_queueReply misuse.safe t _ rest
  · simp only [serves] at rest
    exact Avoids.throw misuse.null _ rest

theorem deliver_ne_error {c : ClientId} {b : BufId} {t : TranId} {x : Client} {tr : Transaction}
    {rval : BitVec 32} {rcode : BitVec 64} {old data held : Bytes}
    (sound : Sound ⟨{ run := some c, held := some b }, σ⟩) (live : σ.client c = some x)
    (idle : x.Idle) (serves : x.wait4 = some (.tran t)) (found : σ.tran t = some tr)
    (room : σ.buf tr.data = some old) (short : data.length < 2 ^ 31)
    (asked : ∃ filled, Received σ₀ e c .svrreturn filled)
    (freed : (σ.setReturn t tr.data rval rcode data).buf b = some held) :
    svriowait c σ.next .part2 part2 ((σ.setReturn t tr.data rval rcode data).freeBuf b) ≠
      .error f := by
  intro faults
  have stores : Effect σ₀ e ⟨{ run := some c, held := some b }, σ⟩
      ⟨{ run := some c, held := some b }, σ.setReturn t tr.data rval rcode data⟩ :=
    .setReturn rfl live serves found room short asked
  obtain ⟨y, live', busy | ⟨_, called⟩⟩ := svriowait_error misuse.safe faults
  · obtain rfl := Option.some.inj (live.symm.trans live')
    exact busy idle
  · have calls : Effect σ₀ e ⟨{ run := some c }, (σ.setReturn t tr.data rval rcode data).freeBuf b⟩
        ⟨_, _⟩ :=
      .call rfl (.inr (.inr rfl))
    have returned := sound.trace before new
      (.head stores (.head (.release rfl freed) (.single calls)))
    exact part2_ne_error before new misuse returned live idle (asked.imp fun _ => .inl) called

omit before new in
theorem avoids_svrreturnData (granted : Bool) (c : ClientId) (b : BufId) :
    Avoids f (svrreturnData granted c b) := by
  refine (avoids_readBuf misuse.safe _).bind fun _ => (avoids_readClient misuse.safe _).bind
    fun x => ?_
  rcases x.wait4 with _ | t | _
  · exact .throw misuse.null
  · refine (avoids_modifyTran misuse.safe _ _).bind fun _ => (avoids_readTran misuse.safe _).bind
      fun tr => ?_
    refine (avoids_tpreallocWith misuse.safe _ _ _).bind fun data => ?_
    cases data with
    | none => exact (avoids_tpfree misuse.safe _).bind fun _ => .pure _
    | some data =>
        exact (avoids_modifyTran misuse.safe _ _).bind fun _ =>
          (avoids_tpfree misuse.safe _).bind fun _ => .pure _
  · exact (avoids_tpfree misuse.safe _).bind fun _ => .pure _

theorem svrreturn_error {c : ClientId} {b : BufId} {x : Client} {contents : Bytes}
    (sound : Sound ⟨{ run := some c, held := some b }, σ⟩) (live : σ.client c = some x)
    (idle : x.Idle) (room : σ.buf b = some contents) (asked : Received σ₀ e c .svrreturn contents)
    (faults : svrreturn c b σ = .error f) :
    f = .assertion ∧ (tolong (contents.drop (1 + IOLONG))).toInt < 0 := by
  simp only [svrreturn, svrreturnWith, bind_error_iff] at faults
  rcases faults with faults | ⟨result, μ, stores, waits⟩
  · exact absurd faults (avoids_svrreturnData misuse true c b σ)
  obtain ⟨contents', y, room', live', outcome⟩ := svrreturnData_ok stores
  obtain rfl := Option.some.inj (room.symm.trans room')
  obtain rfl := Option.some.inj (live.symm.trans live')
  rcases outcome with ⟨any, _⟩ | ⟨t, tr, old, serves, found, room', ⟨refused, rfl⟩ |
    ⟨_, _, rfl, ⟨held, freed⟩, rfl⟩⟩
  · have dispatches : Dispatches { run := some c, held := some b } σ := sound.all.dispatches
    exact absurd any (dispatches.active c x live (.inr rfl)).1
  · exact ⟨(Except.error.inj waits).symm, refused.resolve_right (by decide)⟩
  · have short : (resize old (tolong (contents.drop (1 + IOLONG))).toInt.toNat).length <
        2 ^ 31 := by
      have := tolong_lt (contents.drop (1 + IOLONG))
      rw [length_resize]
      omega
    have delivers := deliver_ne_error before new misuse sound live idle serves found room' short
      ⟨contents, asked⟩ freed
    exact absurd waits delivers

omit before new in
theorem svradvertise_ne_error {c : ClientId} {b : BufId} {x : Client} (live : σ.client c = some x)
    (idle : x.Idle) : svradvertise c b σ ≠ .error f := by
  intro faults
  simp only [svradvertise, bind_error_iff, avoids_readBuf misuse.safe,
    avoids_newAdvertisement misuse.safe, avoids_tpfree misuse.safe, avoids_readAdvert misuse.safe,
    readBuf_ok_iff, tpfree_ok_iff, readAdvert_ok_iff, false_or, and_assoc, exists_and_left,
    exists_eq_left, exists_const] at faults
  obtain ⟨contents, _, a, τ, made, _, v, _, rest⟩ := faults
  obtain ⟨s, μ, founded, outcome⟩ := newAdvertisement_ok_iff.mp made
  have live' : μ.client c = some x := by
    rcases newService_ok_iff.mp founded with ⟨_, rfl⟩ | ⟨_, _, rfl⟩ <;> exact live
  have ready : ∃ y, τ.client c = some y ∧ y.Idle := by
    rcases outcome with ⟨_, rfl⟩ | ⟨_, _, _, rfl⟩
    · exact ⟨x, live', idle⟩
    · exact ⟨_, change_eq_some_iff.mpr ⟨x, live', (if_pos rfl).symm⟩, idle⟩
  obtain ⟨y, live'', idle'⟩ := ready
  have answers : ∀ code,
      (svrwrites c code >>= fun _ => svrNextCommand c) (τ.freeBuf b) ≠ .error f := by
    intro code faults
    simp only [bind_error_iff, avoids_svrwrites misuse.safe, svrwrites_ok_iff, false_or, and_assoc,
      exists_and_left, exists_eq_left, exists_const] at faults
    refine answer_ne_error misuse ?_ idle' faults.2
    exact live''
  split at rest <;> exact answers _ rest

omit before new misuse in
theorem delAdvertisement_intake {depth : Nat} {a : AdvertId} {u : PUnit} {σ σ' : State}
    (done : delAdvertisement depth a σ = .ok (u, σ')) (c : ClientId) :
    (σ'.client c).map Client.intake = (σ.client c).map Client.intake := by
  have kept : KeptByDeletion fun s => (s.client c).map Client.intake =
      (σ.client c).map Client.intake := by
    refine ⟨fun {s a k} sofar => ?_, fun {s t tr} _ sofar => ?_, id, id⟩
    · rw [← sofar]
      exact change_map fun _ => rfl
    · rw [← sofar]
      exact Option.map_map _ _ _
  exact kept.delAdvertisement done rfl

theorem svrunadvertise_ne_error {c : ClientId} {b : BufId} {x : Client} {contents : Bytes}
    (sound : Sound ⟨{ run := some c, held := some b }, σ⟩) (live : σ.client c = some x)
    (idle : x.Idle) (room : σ.buf b = some contents)
    (asked : Received σ₀ e c .svrunadvertise contents) (same : SameTables σ₀ σ) :
    svrunadvertise c b σ ≠ .error f := by
  intro faults
  simp only [svrunadvertise, svrunadvertiseBy, delAdvertisementWith_plain, id_eq,
    bind_error_iff, avoids_readBuf misuse.safe, Avoids.get _,
    avoids_tpfree misuse.safe, readBuf_ok_iff, get_ok_iff, tpfree_ok_iff, false_or, and_assoc,
    exists_and_left, exists_eq_left, exists_const] at faults
  obtain ⟨contents', room', _, rest⟩ := faults
  obtain rfl := Option.some.inj (room.symm.trans room')
  have released : Effect σ₀ e ⟨{ run := some c, held := some b }, σ⟩
      ⟨{ run := some c }, σ.freeBuf b⟩ :=
    .release rfl room
  have answers : ∀ {τ : State} {y : Client} {code}, τ.client c = some y → y.Idle →
      (svrwrites c code >>= fun _ => svrNextCommand c) τ ≠ .error f := by
    intro τ y code live idle faults
    simp only [bind_error_iff, avoids_svrwrites misuse.safe, svrwrites_ok_iff, false_or, and_assoc,
      exists_and_left, exists_eq_left, exists_const] at faults
    refine answer_ne_error misuse ?_ idle faults.2
    exact live
  cases found : σ.fndAdvertisement c (contents.take XATMI_SERVICE_NAME_LENGTH) with
  | none =>
      simp only [found] at rest
      refine answers ?_ idle rest
      exact live
  | some a =>
      obtain ⟨y, _, live', mine, _⟩ := sound.all.registry.fndAdvertisement_eq_some_iff.mp found
      have unadvertises : Unadvertises σ₀ e c a :=
        ⟨contents, asked, (same.fndAdvertisement_eq c _).symm.trans found⟩
      simp only [found, bind_error_iff] at rest
      rcases rest with faults | ⟨_, τ, deleted, rest⟩
      · exact delAdvertisement_ne_error before new misuse (sound.effect before new released)
          rfl rfl rfl live' mine (.inr ⟨rfl, unadvertises, same.freeBuf b⟩) faults
      · obtain ⟨z, live'', intake⟩ := exists_of_map_eq (delAdvertisement_intake deleted c).symm live
        simp only [Client.intake, Prod.mk.injEq] at intake
        refine answers live'' ?_ (bind_error_iff.mpr rest)
        rw [Client.Idle, intake.1, intake.2.1, intake.2.2]
        exact idle

omit before new in
theorem firstTran_ne_error (sound : Sound ⟨φ, σ⟩) {a : AdvertId} (work : σ.Waits a) :
    firstTran a σ ≠ .error f := by
  intro faults
  obtain ⟨v, advert, ⟨svc, service, flag⟩, nonempty⟩ := work
  obtain ⟨t, first⟩ := sound.rings.first_tran service flag nonempty
  simp only [firstTran, bind_error_iff, avoids_readAdvert misuse.safe, avoids_qfirst misuse.safe,
    readAdvert_ok_iff, qfirst_ok_iff, false_or, and_assoc, exists_and_left,
    exists_eq_left] at faults
  obtain ⟨v', advert', _, faults⟩ := faults
  obtain rfl := Option.some.inj (advert.symm.trans advert')
  rw [first] at faults
  exact Avoids.pure _ _ faults

omit before new in
theorem findEarliest_ne_error (sound : Sound ⟨φ, σ⟩) {earliest : Option AdvertId} {p : AdvertId}
    (work : ∀ q, earliest = some q → σ.Waits q) : findEarliest earliest p σ ≠ .error f := by
  intro faults
  simp only [findEarliest, bind_error_iff, avoids_readAdvert misuse.safe,
    avoids_readService misuse.safe, avoids_qisempty misuse.safe, readAdvert_ok_iff,
    readService_ok_iff, qisempty_ok_iff, false_or, and_assoc, exists_and_left,
    exists_eq_left] at faults
  obtain ⟨v, advert, svc, service, _, rest⟩ := faults
  split at rest
  · rename_i waiting
    cases earliest with
    | none => exact Avoids.pure _ _ rest
    | some q =>
        simp only [Bool.and_eq_true, Bool.not_eq_eq_eq_not, Bool.not_true, decide_eq_false_iff_not]
          at waiting
        have second := firstTran_ne_error misuse sound ⟨v, advert, ⟨svc, service, waiting.1⟩,
          waiting.2⟩
        simp only [bind_error_iff, firstTran_ne_error misuse sound (work q rfl), second,
          avoids_readTran misuse.safe, firstTran_ok_iff, readTran_ok_iff, false_or, and_assoc,
          exists_and_left, exists_eq_left] at rest
        obtain ⟨_, _, _, _, _, _, _, _, rest⟩ := rest
        exact Avoids.ite (.pure _) (.pure _) _ rest
  · exact Avoids.pure _ _ rest

omit before new in
theorem foldlM_findEarliest_ne_error (sound : Sound ⟨φ, σ⟩) {adverts : List AdvertId}
    {earliest : Option AdvertId} (work : ∀ q, earliest = some q → σ.Waits q) :
    adverts.foldlM findEarliest earliest σ ≠ .error f := by
  induction adverts generalizing earliest with
  | nil => exact Avoids.pure _ _
  | cons p adverts ih =>
      intro faults
      rcases bind_error_iff.mp faults with faults | ⟨middle, μ, visited, rest⟩
      · exact findEarliest_ne_error misuse sound work faults
      · obtain ⟨visits, rfl⟩ := findEarliest_ok_iff.mp visited
        refine ih (fun q same => ?_) rest
        rcases State.Chooses.waits (.cons visits (.nil _)) same with kept | ⟨_, found⟩
        · exact work q kept
        · exact found

theorem svrservice_ne_error {c : ClientId} {b : BufId} {x : Client}
    (sound : Sound ⟨{ run := some c, held := some b }, σ⟩) (live : σ.client c = some x)
    (idle : x.Idle) : svrservice e.env c b σ ≠ .error f := by
  intro faults
  simp only [svrservice, bind_error_iff, avoids_tpfree misuse.safe, avoids_readClient misuse.safe,
    tpfree_ok_iff, readClient_ok_iff, false_or, and_assoc, exists_and_left, exists_eq_left,
    exists_const] at faults
  obtain ⟨⟨contents, room⟩, y, live', rest⟩ := faults
  obtain rfl := Option.some.inj (live.symm.trans live')
  have released : Sound ⟨{ run := some c }, σ.freeBuf b⟩ :=
    sound.effect before new (.release rfl room)
  rcases rest with faults | ⟨choice, μ, walked, rest⟩
  · exact foldlM_findEarliest_ne_error misuse released (by simp) faults
  · obtain ⟨chooses, rfl⟩ := foldlM_findEarliest_ok_iff.mp walked
    cases choice with
    | none => exact Avoids.forM (avoids_addToWaitq misuse.safe) _ _ rest
    | some a =>
        obtain impossible | ⟨member, work⟩ := chooses.waits rfl
        · cases impossible
        simp only [bind_error_iff, firstTran_ne_error misuse released work, firstTran_ok_iff,
          false_or, and_assoc, exists_and_left, exists_eq_left] at rest
        obtain ⟨t, _, faults⟩ := rest
        obtain ⟨v, z, advert, worker, busy⟩ := sendToServer_error misuse.safe faults
        have mine : a ∈ x.adverts := (e.env.walk_perm x.adverts).mem_iff.mp member
        obtain ⟨_, w, advert', owner, _⟩ := released.all.registry.tree c x a live mine
        obtain rfl := Option.some.inj (advert.symm.trans advert')
        rw [owner] at worker
        obtain rfl := Option.some.inj (live.symm.trans worker)
        exact busy idle

theorem command_ne_error {c : ClientId} {b : BufId} {x : Client} {contents : Bytes}
    (sound : Sound ⟨{ run := some c, held := some b }, σ⟩) (live : σ.client c = some x)
    (idle : x.Idle) (room : σ.buf b = some contents) (asked : Received σ₀ e c .command contents)
    (same : SameTables σ₀ σ) : command e.env c b σ ≠ .error f := by
  intro faults
  simp only [command, bind_error_iff, avoids_readBuf misuse.safe, readBuf_ok_iff, false_or,
    and_assoc, exists_and_left, exists_eq_left] at faults
  obtain ⟨contents', room', rest⟩ := faults
  obtain rfl := Option.some.inj (room.symm.trans room')
  cases known : commands[(contents.getD 0 0).toNat]? with
  | none =>
      simp only [known, bind_error_iff, avoids_tpfree misuse.safe, tpfree_ok_iff, false_or,
        and_assoc, exists_and_left, exists_eq_left, exists_const] at rest
      refine delClient_ne_error before new misuse
        (sound.effect before new (.release rfl room)) (.inr ⟨contents, asked, known⟩)
        (.inr rfl) live (same.freeBuf b) rest.2
  | some entry =>
      obtain ⟨handler, len⟩ := entry
      simp only [known, bind_error_iff, avoids_tprealloc misuse.safe, tprealloc_ok_iff,
        false_or] at rest
      obtain ⟨data, τ, ⟨old, room', ⟨negative, _⟩ | ⟨_, rfl, rfl⟩⟩, rest⟩ := rest
      · omega
      · have moved : Effect σ₀ e ⟨{ run := some c, held := some b }, σ⟩
            ⟨{ run := some c, held := some σ.next },
              (σ.freeBuf b).allocBuf (resize old (Int.toNat len))⟩ :=
          .resize rfl room
        obtain ⟨y, live', busy | ⟨empty, called⟩⟩ := svriowait_error misuse.safe rest
        · obtain rfl := Option.some.inj (live.symm.trans live')
          exact busy idle
        · have made : ((σ.freeBuf b).allocBuf (resize old (Int.toNat len))).buf σ.next =
              some (resize old (Int.toNat len)) :=
            if_pos rfl
          have length := congrArg List.length (Option.some.inj (made.symm.trans empty))
          obtain rfl : len = 0 := by simpa [length_resize] using length
          obtain ⟨rfl, _⟩ := commands_empty known
          have calls : Effect σ₀ e ⟨{ run := some c, held := some σ.next },
              (σ.freeBuf b).allocBuf (resize old (Int.toNat 0))⟩ ⟨_, _⟩ :=
            .call rfl (.inl rfl)
          exact svrservice_ne_error before new misuse
            (sound.trace before new (.head moved (.single calls))) live idle called

end

theorem runHandler_error {e : Event} {c : ClientId} {x : Client} {handler : Handler} {b : BufId}
    {contents filled : Bytes} (sound : Sound ⟨{}, σ⟩) (new : PicksNew σ e) (misuse : f.Misuse)
    (asked : Received σ e c handler filled) (live : σ.client c = some x) (into : x.input = some b)
    (reading : x.handler = some handler) (room : σ.buf b = some contents)
    (length : filled.length = contents.length) (nonempty : filled ≠ [])
    (faults : runHandler e.env handler c b (σ.begin c handler b filled) = .error f) :
    handler = .svrreturn ∧ f = .assertion ∧ (tolong (filled.drop (1 + IOLONG))).toInt < 0 := by
  have before : Parking {} σ := sound.parking
  have begins : Effect σ e ⟨{}, σ⟩ ⟨.called c x handler b, σ.begin c handler b filled⟩ :=
    .begin asked live into reading room length nonempty
  have called := sound.effect before new begins
  have live' : (σ.begin c handler b filled).client c =
      some { x with handler := none, input := none, used := 0 } :=
    change_eq_some_iff.mpr ⟨x, live, by simp⟩
  have room' : (σ.begin c handler b filled).buf b = some filled := if_pos rfl
  have same : SameTables σ (σ.begin c handler b filled) := sameTables_begin c handler b filled
  have idle : ({ x with handler := none, input := none, used := 0 } : Client).Idle :=
    ⟨rfl, rfl, rfl⟩
  cases handler with
  | command =>
      exact absurd faults (command_ne_error before new misuse called live' idle room' asked same)
  | svracall =>
      exact absurd faults (svracall_ne_error before new misuse called live' idle ⟨filled, asked⟩)
  | svrgetrply => exact absurd faults (svrgetrply_ne_error misuse called live' idle)
  | svradvertise => exact absurd faults (svradvertise_ne_error misuse live' idle)
  | svrunadvertise =>
      exact absurd faults (svrunadvertise_ne_error before new misuse called live' idle room'
        asked same)
  | svrservice => exact absurd reading (sound.all.readers c x live).service
  | svrreturn => exact ⟨rfl, svrreturn_error before new misuse called live' idle room' asked faults⟩
  | sendToWorker =>
      obtain ⟨t, tr, uploading, _⟩ := sound.all.dispatches.upload c x live reading (by simp)
      simp only [Phase.called, uploading.last] at called
      exact absurd faults (sendToWorker_ne_error (b := b) before new misuse called live' idle
        uploading.last)
  | part2 => exact absurd faults (part2_ne_error (b := b) before new misuse called live' idle
    ⟨filled, .inr asked⟩)

theorem step_stale {e : Event} {c : ClientId} {input : Option Bytes} {x : Client} {b : BufId}
    {handler : Handler} (source : e.happening = .ready c input) (connected : c ∈ σ.clients)
    (live : σ.client c = some x) (into : x.input = some b) (reading : x.handler = some handler)
    (gone : σ.buf b = none) : step σ e = .error .useAfterFree := by
  have served : serve e.env c input σ = .error .useAfterFree := by
    unfold serve
    rw [bind_of_ok (readClient_ok_iff.mpr ⟨live, rfl⟩)]
    simp only [into, reading]
    exact bind_of_error (demand_of_none gone)
  rw [step_ready source connected, served]
  rfl

theorem sound_of_reachable (reach : Reachable PicksNew σ) : Sound ⟨{}, σ⟩ :=
  ⟨inv_of_reachable reach, parking_of_reachable reach⟩

/-- As long as no transaction is dispatched twice, an assertion fails only for a `TPTRETN` with a
negative length, and no entry of a wait queue is ever mistaken. -/
theorem misuse_of_step {e : Event} (sound : Sound ⟨{}, σ⟩) (new : PicksNew σ e) (misuse : f.Misuse)
    (faults : step σ e = .error f) : f = .assertion ∧ ∃ c filled, Received σ e c .svrreturn filled ∧
      (tolong (filled.drop (1 + IOLONG))).toInt < 0 := by
  have before : Parking {} σ := sound.parking
  cases source : e.happening with
  | connect =>
      rw [step_connect source] at faults
      cases faults
  | ready c input =>
      by_cases connected : c ∈ σ.clients
      · obtain ⟨x, live⟩ := (sound.all.registry.mem_clients c).mp connected
        by_cases room : ∀ b, x.input = some b → ∃ contents, σ.buf b = some contents
        · rcases ready_cases source connected live room with closes | ⟨handler, filled, asked⟩ |
            ⟨b, contents, piece, done⟩
          · obtain ⟨φ, μ, _, quiet, trace, same, called⟩ :=
              step_closes closes fun y b live' into => by
                obtain rfl := Option.some.inj (live.symm.trans live')
                exact room b into
            obtain ⟨y, live', _⟩ := exists_of_map_eq (same.client c).symm live
            rw [called, map_error_iff] at faults
            exact absurd faults (delClient_ne_error before new misuse (sound.trace before new trace)
              closes quiet live' same)
          · obtain ⟨y, b, contents, live', into, reading, stored, length, nonempty, called⟩ :=
              step_of_received asked
            rw [called, map_error_iff] at faults
            obtain ⟨rfl, assertion, negative⟩ :=
              runHandler_error sound new misuse asked live' into reading
                stored length nonempty faults
            exact ⟨assertion, c, filled, asked, negative⟩
          · rw [done] at faults
            cases faults
        · push Not at room
          obtain ⟨b, into, gone⟩ := room
          have proper := sound.all.readers c x live
          obtain ⟨handler, reading⟩ : ∃ handler, x.handler = some handler := by
            refine Option.ne_none_iff_exists'.mp fun none_ => ?_
            rw [(proper.idle none_).2.1] at into
            cases into
          rw [step_stale source connected live into reading
            (Option.eq_none_iff_forall_ne_some.mpr gone)] at faults
          exact absurd (Except.error.inj faults) misuse.safe
      · rw [step_absent source connected] at faults
        cases faults

end Switchboard
end Xatmi
