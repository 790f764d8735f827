import Xatmi.Switchboard.Teardown

/-!
# Deletion with an allocator that checks

With an allocator that faults when an object is freed a second time, a deletion that returns has
freed every object at most once; and at depth one `del_service` cannot delete advertisements.
-/

namespace Xatmi
namespace Switchboard

open Program

namespace Release

/-- `free` that faults for an object that is not allocated. -/
def checked : Release where
  tran t := do
    let _ ← readTran t
    modify fun σ => σ.dropTran t
  service s := do
    let _ ← readService s
    modify fun σ => σ.dropService s
  advert a := do
    let _ ← readAdvert a
    modify fun σ => σ.dropAdvert a

/-- An allocated object is freed. -/
structure Frees (r : Release) : Prop where
  tran : ∀ {σ : State} {t tr}, σ.tran t = some tr → r.tran t σ = .ok (⟨⟩, σ.dropTran t)
  service : ∀ {σ : State} {s svc}, σ.service s = some svc →
    r.service s σ = .ok (⟨⟩, σ.dropService s)
  advert : ∀ {σ : State} {a v}, σ.advert a = some v → r.advert a σ = .ok (⟨⟩, σ.dropAdvert a)

theorem frees_plain : plain.Frees :=
  ⟨fun _ => rfl, fun _ => rfl, fun _ => rfl⟩

theorem frees_checked : checked.Frees where
  tran current := bind_of_ok (readTran_ok_iff.mpr ⟨current, rfl⟩)
  service current := bind_of_ok (readService_ok_iff.mpr ⟨current, rfl⟩)
  advert current := bind_of_ok (readAdvert_ok_iff.mpr ⟨current, rfl⟩)

end Release

/-! ## The functions -/

/-- `del_client`, to a fixed depth. -/
def delClientWith (r : Release) (depth : Nat) : Env → ClientId → M PUnit :=
  delClientBy r fun _ => depth

/-- `svrunadvertise`, to a fixed depth. -/
def svrunadvertiseWith (r : Release) (depth : Nat) : ClientId → BufId → M PUnit :=
  svrunadvertiseBy r fun _ => depth

theorem delTransactionWith_eq {r : Release} (frees : r.Frees) :
    delTransactionWith r = delTransaction := by
  funext t σ
  refine bind_congr_of_ok fun tr σ₁ read => ?_
  obtain ⟨found, rfl⟩ := readTran_ok_iff.mp read
  refine bind_congr_of_ok fun _ σ₂ dequeued => bind_congr_of_ok fun _ σ₃ unlinked => ?_
  refine bind_congr_of_ok fun _ σ₄ cleared => bind_congr_of_ok fun _ σ₅ cleared' => ?_
  refine bind_congr_of_ok fun _ σ₆ freed => ?_
  obtain ⟨_, rfl⟩ := modifyClient_ok_iff.mp dequeued
  obtain ⟨_, rfl⟩ := qdelete_ok_iff.mp unlinked
  obtain ⟨_, rfl⟩ := clearWait_ok_iff.mp cleared
  obtain ⟨_, same⟩ := clearWorker_ok_iff.mp cleared'
  have current : σ₅.tran t = some tr := by
    rw [same]
    split <;> exact found
  obtain ⟨_, rfl⟩ := tpfree_ok_iff.mp freed
  exact frees.tran current

variable {r : Release}

theorem sndReplyWith_eq (frees : r.Frees) : sndReplyWith r = sndReply := by
  funext t
  unfold sndReply sndReplyWith
  rw [delTransactionWith_eq frees]
  rfl

theorem failWorkWith_eq (frees : r.Frees) (c : ClientId) : failWorkWith r c = failWork c := by
  have fails : failTransactionWith r = failTransaction := by
    funext c t
    unfold failTransaction failTransactionWith
    rw [sndReplyWith_eq frees]
    rfl
  unfold failWork failWorkWith
  rewrite [fails]
  rfl

theorem delQueueWith_eq (frees : r.Frees) : delQueueWith r = delQueue := by
  funext c queue bound
  unfold delQueue delQueueWith
  rewrite [delTransactionWith_eq frees]
  rfl

end Switchboard
end Xatmi
