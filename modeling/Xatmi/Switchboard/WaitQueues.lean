import Xatmi.Switchboard.Effect

/-!
# The wait queues

An advertisement can be linked on a wait queue while it is linked already, and the ring of its
service is then damaged. This file states what holds of the links all the same, in every reachable
memory: a queue marked as holding transactions is a ring of transactions of its service; a
transaction is on the queue of its service or a ring of its own; and what is linked behind the head
of any other queue are advertisements of its service.
-/

namespace Xatmi
namespace Switchboard

open Intrusive

/-- The identifier behind a link field. -/
def Node.id : Node → Nat
  | .head s => s
  | .adv a => a
  | .tran t => t

namespace State

/-- The transactions waiting for service `s`, in order. -/
def Queue (σ : State) (s : ServiceId) (waiting : List TranId) : Prop :=
  σ.Flagged s ∧ σ.links.IsRing (.head s) (waiting.map .tran)

/-- Transaction `t` is waiting for service `s`. -/
def Queued (σ : State) (s : ServiceId) (t : TranId) : Prop :=
  ∃ waiting, σ.Queue s waiting ∧ t ∈ waiting

/-- The head of the queue of `s`, or one of its advertisements, as long as that is not freed. -/
def Near (σ : State) (s : ServiceId) : Node → Prop
  | .head s' => s' = s
  | .adv a => ∀ v, σ.advert a = some v → v.svc = s
  | .tran _ => False

end State

/-- What holds of the wait queues in every reachable memory. -/
structure WaitQueues (σ : State) : Prop where
  /-- A queue of transactions is a ring of current transactions of its service. -/
  queue : ∀ s, σ.Flagged s → ∃ waiting, σ.Queue s waiting ∧
    ∀ t ∈ waiting, ∃ tr, σ.tran t = some tr ∧ tr.svc = s
  /-- A transaction is on no queue, or on that of its service. -/
  tran : ∀ t tr, σ.tran t = some tr → σ.links.Alone (.tran t) ∨ σ.Queued tr.svc t
  /-- Heads of queues are seen from at most one side on either side. -/
  anchored : ∀ s svc, σ.service s = some svc →
    σ.links.Anchored (fun n => σ.nodeLive n = true) (.head s)
  /-- An advertisement is linked within its service. -/
  adv : ∀ a v, σ.advert a = some v →
    σ.Near v.svc (σ.links.p1 (.adv a)) ∧ σ.Near v.svc (σ.links.p2 (.adv a))
  /-- A queue of advertisements has an advertisement of its service at either end. -/
  head : ∀ s svc, σ.service s = some svc → svc.waitContainsTransactions = false →
    σ.Near s (σ.links.p1 (.head s)) ∧ σ.Near s (σ.links.p2 (.head s))
  /-- No link leads to an object that has yet to be created. -/
  old : ∀ n, σ.nodeLive n = true →
    n.id < σ.next ∧ (σ.links.p1 n).id < σ.next ∧ (σ.links.p2 n).id < σ.next

namespace WaitQueues

variable {σ : State}

theorem start : WaitQueues .start where
  queue := by simp [State.start, State.Flagged]
  tran := by simp [State.start]
  anchored := by simp [State.start]
  adv := by simp [State.start]
  head := by simp [State.start]
  old := by intro n live; cases n <;> simp [State.start, State.nodeLive] at live

/-- The queues depend only on the links and on which objects there are. -/
theorem congr {τ : State} (inv : WaitQueues σ) (links : τ.links = σ.links)
    (service : τ.service = σ.service) (advert : τ.advert = σ.advert)
    (tran : ∀ t, (τ.tran t).map Transaction.svc = (σ.tran t).map Transaction.svc)
    (next : σ.next ≤ τ.next) : WaitQueues τ := by
  have flagged : ∀ s, τ.Flagged s ↔ σ.Flagged s := by simp [State.Flagged, service]
  have queue : ∀ s waiting, τ.Queue s waiting ↔ σ.Queue s waiting := by
    simp [State.Queue, flagged, links]
  have near : ∀ s n, τ.Near s n ↔ σ.Near s n := by
    intro s n
    cases n <;> simp [State.Near, advert]
  have live : ∀ n, τ.nodeLive n = σ.nodeLive n := by
    intro n
    cases n with
    | head s => simp [State.nodeLive, service]
    | adv a => simp [State.nodeLive, advert]
    | tran t => simpa [State.nodeLive] using congrArg Option.isSome (tran t)
  have found : ∀ t s, (∃ tr, τ.tran t = some tr ∧ tr.svc = s) ↔
      ∃ tr, σ.tran t = some tr ∧ tr.svc = s := by
    intro t s
    simpa [Option.map_eq_some_iff] using congrArg (· = some s) (tran t)
  constructor
  · intro s flag
    obtain ⟨waiting, ring, members⟩ := inv.queue s ((flagged s).mp flag)
    exact ⟨waiting, (queue s waiting).mpr ring, fun t member => (found t s).mpr (members t member)⟩
  · intro t tr current
    obtain ⟨tr', current', same⟩ := (found t tr.svc).mp ⟨tr, current, rfl⟩
    rw [links, State.Queued]
    simp only [queue, ← same]
    exact inv.tran t tr' current'
  · intro s svc current
    rw [links]
    simp only [live]
    exact inv.anchored s svc (service ▸ current)
  · intro a v current
    rw [links, near, near]
    exact inv.adv a v (advert ▸ current)
  · intro s svc current flag
    rw [links, near, near]
    exact inv.head s svc (service ▸ current) flag
  · intro n current
    have := inv.old n ((live n).symm.trans current)
    rw [links]
    omega

/-! ## Who points where -/

theorem flagged_of_live {s : ServiceId} {svc : Service} (current : σ.service s = some svc) :
    σ.Flagged s ↔ svc.waitContainsTransactions = true := by
  simp [State.Flagged, current]

theorem members_live {s : ServiceId} {waiting : List TranId} (queue : σ.Queue s waiting)
    (members : ∀ t ∈ waiting, ∃ tr, σ.tran t = some tr ∧ tr.svc = s) :
    ∀ n ∈ Node.head s :: waiting.map .tran, σ.nodeLive n = true := by
  obtain ⟨⟨svc, current, _⟩, _⟩ := queue
  simp only [List.mem_cons, List.mem_map]
  rintro n (rfl | ⟨t, member, rfl⟩)
  · simp [State.nodeLive, current]
  · obtain ⟨tr, found, _⟩ := members t member
    simp [State.nodeLive, found]

theorem mem_of_points_head (inv : WaitQueues σ) {s : ServiceId} {waiting : List TranId} {n : Node}
    (queue : σ.Queue s waiting) (members : ∀ t ∈ waiting, ∃ tr, σ.tran t = some tr ∧ tr.svc = s)
    (live : σ.nodeLive n = true) (points : σ.links.p1 n = .head s ∨ σ.links.p2 n = .head s) :
    n ∈ Node.head s :: waiting.map .tran := by
  obtain ⟨⟨svc, current, _⟩, ring⟩ := queue
  exact (inv.anchored s svc current).mem_of_points ring
    (members_live ⟨⟨svc, current, ‹_›⟩, ring⟩ members) live points

theorem not_flagged_of_points (inv : WaitQueues σ) {a : AdvertId} {v : Advert} {s : ServiceId}
    (advert : σ.advert a = some v)
    (points : σ.links.p1 (.adv a) = .head s ∨ σ.links.p2 (.adv a) = .head s) : ¬σ.Flagged s := by
  intro flag
  obtain ⟨waiting, queue, members⟩ := inv.queue s flag
  have := inv.mem_of_points_head queue members (n := .adv a) (by simp [State.nodeLive, advert])
    points
  simp at this

theorem queue_members (inv : WaitQueues σ) {s : ServiceId} {waiting : List TranId}
    (queue : σ.Queue s waiting) : ∀ t ∈ waiting, ∃ tr, σ.tran t = some tr ∧ tr.svc = s := by
  obtain ⟨waiting', queue', members⟩ := inv.queue s queue.1
  have same := queue.2.unique queue'.2
  rw [List.map_inj_right (fun _ _ => Node.tran.inj)] at same
  exact same ▸ members

theorem tran_of_queued (inv : WaitQueues σ) {s : ServiceId} {t : TranId} (queued : σ.Queued s t) :
    ∃ tr, σ.tran t = some tr ∧ tr.svc = s := by
  obtain ⟨waiting, queue, member⟩ := queued
  exact inv.queue_members queue t member

theorem not_alone_of_queued {s : ServiceId} {t : TranId} (queued : σ.Queued s t) :
    ¬σ.links.Alone (.tran t) := by
  obtain ⟨waiting, queue, member⟩ := queued
  exact queue.2.not_alone (List.mem_map_of_mem member)

/-- The first entry of a queue of transactions is waiting there. -/
theorem queued_of_first (inv : WaitQueues σ) {s : ServiceId} {t : TranId} (flag : σ.Flagged s)
    (first : σ.links.p2 (.head s) = .tran t) : σ.Queued s t := by
  obtain ⟨waiting, queue, _⟩ := inv.queue s flag
  have member := (queue.2.neighbours_mem (n := .head s) (by simp)).2
  rw [first] at member
  exact ⟨waiting, queue, by simpa using member⟩

theorem not_linked_of_not_queued (inv : WaitQueues σ) {t : TranId} (away : ∀ s, ¬σ.Queued s t)
    {n : Node} (live : σ.nodeLive n = true) (other : n ≠ .tran t) :
    σ.links.p1 n ≠ .tran t ∧ σ.links.p2 n ≠ .tran t := by
  have outside : ∀ {s waiting}, σ.Queue s waiting → n ∈ Node.head s :: waiting.map .tran →
      σ.links.p1 n ≠ .tran t ∧ σ.links.p2 n ≠ .tran t := by
    intro s waiting queue member
    have outside : Node.tran t ∉ Node.head s :: waiting.map .tran := by
      intro inside
      exact away s ⟨waiting, queue, by simpa using inside⟩
    have ⟨before, after⟩ := queue.2.neighbours_mem member
    exact ⟨fun points => outside (points ▸ before), fun points => outside (points ▸ after)⟩
  cases n with
  | head s =>
      obtain ⟨svc, current⟩ := Option.isSome_iff_exists.mp live
      cases flag : svc.waitContainsTransactions with
      | true =>
          obtain ⟨waiting, queue, _⟩ := inv.queue s ⟨svc, current, flag⟩
          exact outside queue (by simp)
      | false =>
          have ⟨before, after⟩ := inv.head s svc current flag
          exact ⟨fun points => by rw [points] at before; exact before,
            fun points => by rw [points] at after; exact after⟩
  | adv a =>
      obtain ⟨v, current⟩ := Option.isSome_iff_exists.mp live
      have ⟨before, after⟩ := inv.adv a v current
      exact ⟨fun points => by rw [points] at before; exact before,
        fun points => by rw [points] at after; exact after⟩
  | tran t' =>
      obtain ⟨tr, current⟩ := Option.isSome_iff_exists.mp live
      rcases inv.tran t' tr current with ⟨before, after⟩ | ⟨waiting, queue, member⟩
      · rw [before, after]
        exact ⟨other, other⟩
      · exact outside queue (by simpa using member)

/-! ## Unlinking -/

theorem queue_disjoint (inv : WaitQueues σ) {s s' : ServiceId} {waiting waiting' : List TranId}
    (queue : σ.Queue s waiting) (queue' : σ.Queue s' waiting') (different : s' ≠ s) {n : Node}
    (member : n ∈ Node.head s :: waiting.map .tran)
    (member' : n ∈ Node.head s' :: waiting'.map .tran) : False := by
  have members := inv.queue_members queue
  have members' := inv.queue_members queue'
  simp only [List.mem_cons, List.mem_map] at member member'
  rcases member with rfl | ⟨t, inside, rfl⟩
  · simp [different.symm] at member'
  · obtain ⟨t', inside', same⟩ : ∃ t', t' ∈ waiting' ∧ Node.tran t' = .tran t := by
      simpa using member'
    obtain rfl := Node.tran.inj same
    obtain ⟨tr, found, rfl⟩ := members t' inside
    obtain ⟨tr', found', rfl⟩ := members' t' inside'
    exact different (by rw [Option.some.inj (found.symm.trans found')])

theorem unlink_tran_outside {s : ServiceId} {waiting : List TranId} {t : TranId}
    (queue : σ.Queue s waiting) (member : t ∈ waiting) {n : Node}
    (away : n ∉ Node.head s :: waiting.map .tran) :
    (σ.unlink (.tran t)).links.p1 n = σ.links.p1 n ∧
      (σ.unlink (.tran t)).links.p2 n = σ.links.p2 n := by
  have inside : Node.tran t ∈ Node.head s :: waiting.map .tran := by simpa using member
  have ⟨before, after⟩ := queue.2.neighbours_mem inside
  simp only [State.unlink, Links.delete_p1, Links.delete_p2]
  grind

theorem alone_unlink_tran (inv : WaitQueues σ) {t t' : TranId} {tr : Transaction}
    (current : σ.tran t = some tr) (alone : σ.links.Alone (.tran t')) :
    (σ.unlink (.tran t)).links.Alone (.tran t') := by
  rcases inv.tran t tr current with same | ⟨waiting, queue, member⟩
  · simpa [State.unlink, Links.delete_of_alone same] using alone
  · have away : Node.tran t' ∉ Node.head tr.svc :: waiting.map .tran := by
      intro inside
      exact queue.2.not_alone (n := .tran t') (by simpa using inside) alone
    have same := unlink_tran_outside queue member away
    exact ⟨same.1.trans alone.1, same.2.trans alone.2⟩

theorem queue_unlink_tran (inv : WaitQueues σ) {t : TranId} {tr : Transaction} {s : ServiceId}
    {waiting : List TranId} (current : σ.tran t = some tr) (queue : σ.Queue s waiting) :
    (σ.unlink (.tran t)).Queue s (waiting.erase t) := by
  by_cases member : t ∈ waiting
  · obtain ⟨left, right, rfl⟩ := List.append_of_mem member
    have ring : σ.links.IsRing (.head s) (left.map .tran ++ .tran t :: right.map .tran) := by
      simpa using queue.2
    have apart : t ∉ left := by
      intro inside
      have := ring.nodup
      simp only [List.nodup_cons, List.nodup_append] at this
      exact this.2.2.2 (.tran t) (List.mem_map_of_mem inside) (.tran t) (by simp) rfl
    rw [List.erase_append_right _ apart, List.erase_cons_head]
    exact ⟨queue.1, by rw [List.map_append]; exact ring.delete⟩
  · rw [List.erase_of_not_mem member]
    rcases inv.tran t tr current with alone | ⟨waiting', queue', member'⟩
    · simpa [State.unlink, Links.delete_of_alone alone] using queue
    · have different : s ≠ tr.svc := by
        rintro rfl
        have unique := queue'.2.unique queue.2
        rw [List.map_inj_right (fun _ _ => Node.tran.inj)] at unique
        exact member (unique ▸ member')
      refine ⟨queue.1, queue.2.congr ?_⟩
      intro n inside
      exact unlink_tran_outside queue' member' fun inside' =>
        inv.queue_disjoint queue' queue different inside' inside

theorem unlink_tran (inv : WaitQueues σ) {t : TranId} {tr : Transaction}
    (current : σ.tran t = some tr) : WaitQueues (σ.unlink (.tran t)) := by
  have live : σ.nodeLive (.tran t) = true := Option.isSome_of_eq_some current
  constructor
  · intro s flag
    obtain ⟨waiting, queue, members⟩ := inv.queue s flag
    exact ⟨waiting.erase t, inv.queue_unlink_tran current queue,
      fun t' inside => members t' (List.mem_of_mem_erase inside)⟩
  · intro t' tr' current'
    by_cases same : t' = t
    · subst same
      exact .inl (Links.delete_alone _ _)
    · rcases inv.tran t' tr' current' with alone | ⟨waiting, queue, member⟩
      · exact .inl (inv.alone_unlink_tran current alone)
      · exact .inr ⟨waiting.erase t, inv.queue_unlink_tran current queue,
          (List.mem_erase_of_ne same).mpr member⟩
  · intro s svc current'
    have headLive : σ.nodeLive (.head s) = true := Option.isSome_of_eq_some current'
    exact (inv.anchored s svc current').delete headLive live (by simp)
  · intro a v advert
    rcases inv.tran t tr current with alone | ⟨waiting, queue, member⟩
    · simpa [State.unlink, Links.delete_of_alone alone] using inv.adv a v advert
    · have same := unlink_tran_outside queue member (n := .adv a) (by simp)
      rw [same.1, same.2]
      exact inv.adv a v advert
  · intro s svc current' flag
    rcases inv.tran t tr current with alone | ⟨waiting, queue, member⟩
    · simpa [State.unlink, Links.delete_of_alone alone] using inv.head s svc current' flag
    · have different : s ≠ tr.svc := by
        rintro rfl
        have := (flagged_of_live current').mp queue.1
        simp [flag] at this
      have same := unlink_tran_outside queue member (n := .head s) (by simpa using different)
      rw [same.1, same.2]
      exact inv.head s svc current' flag
  · intro n nodeLive
    have self := inv.old n nodeLive
    have node := inv.old (.tran t) live
    simp only [State.unlink, Links.delete_p1, Links.delete_p2]
    grind

/-- Taking an advertisement off its queue changes no link of a transaction. -/
theorem unlink_adv_tran (inv : WaitQueues σ) {a : AdvertId} {v : Advert}
    (current : σ.advert a = some v) (t : TranId) :
    (σ.unlink (.adv a)).links.p1 (.tran t) = σ.links.p1 (.tran t) ∧
      (σ.unlink (.adv a)).links.p2 (.tran t) = σ.links.p2 (.tran t) := by
  have ⟨before, after⟩ := inv.adv a v current
  have notBefore : σ.links.p1 (.adv a) ≠ .tran t := by
    intro points
    rw [points] at before
    exact before
  have notAfter : σ.links.p2 (.adv a) ≠ .tran t := by
    intro points
    rw [points] at after
    exact after
  simp only [State.unlink, Links.delete_p1, Links.delete_p2]
  grind

theorem queue_unlink_adv (inv : WaitQueues σ) {a : AdvertId} {v : Advert} {s : ServiceId}
    {waiting : List TranId} (current : σ.advert a = some v) (queue : σ.Queue s waiting) :
    (σ.unlink (.adv a)).Queue s waiting := by
  refine ⟨queue.1, queue.2.congr ?_⟩
  intro n member
  simp only [List.mem_cons, List.mem_map] at member
  rcases member with rfl | ⟨t, _, rfl⟩
  · have notBefore : σ.links.p1 (.adv a) ≠ .head s := fun points =>
      inv.not_flagged_of_points current (.inl points) queue.1
    have notAfter : σ.links.p2 (.adv a) ≠ .head s := fun points =>
      inv.not_flagged_of_points current (.inr points) queue.1
    simp only [State.unlink, Links.delete_p1, Links.delete_p2]
    grind
  · exact inv.unlink_adv_tran current t

theorem unlink_adv (inv : WaitQueues σ) {a : AdvertId} {v : Advert} (current : σ.advert a = some v)
    (unlinkable : σ.Unlinkable (.adv a)) : WaitQueues (σ.unlink (.adv a)) := by
  obtain ⟨live, beforeLive, afterLive⟩ := unlinkable
  have ⟨before, after⟩ := inv.adv a v current
  have nearLive : ∀ b w, σ.advert b = some w →
      (.adv b = σ.links.p1 (.adv a) ∨ .adv b = σ.links.p2 (.adv a)) → w.svc = v.svc := by
    rintro b w found (points | points)
    · rw [← points] at before
      exact before w found
    · rw [← points] at after
      exact after w found
  constructor
  · intro s flag
    obtain ⟨waiting, queue, members⟩ := inv.queue s flag
    exact ⟨waiting, inv.queue_unlink_adv current queue, members⟩
  · intro t tr found
    rcases inv.tran t tr found with alone | ⟨waiting, queue, member⟩
    · have same := inv.unlink_adv_tran current t
      exact .inl ⟨same.1.trans alone.1, same.2.trans alone.2⟩
    · exact .inr ⟨waiting, inv.queue_unlink_adv current queue, member⟩
  · intro s svc found
    have headLive : σ.nodeLive (.head s) = true := Option.isSome_of_eq_some found
    exact (inv.anchored s svc found).delete headLive live (by simp)
  · intro b w found
    have found : σ.advert b = some w := found
    have old := inv.adv b w found
    have self : σ.Near v.svc (.adv a) := by
      intro v' found'
      rw [Option.some.inj (found'.symm.trans current)]
    have := nearLive b w found
    change σ.Near w.svc _ ∧ σ.Near w.svc _
    simp only [State.unlink, Links.delete_p1, Links.delete_p2]
    grind
  · intro s svc found flag
    have old := inv.head s svc found flag
    have back : σ.links.p1 (.adv a) = .head s → s = v.svc := by
      intro points
      rw [points] at before
      exact before
    have forth : σ.links.p2 (.adv a) = .head s → s = v.svc := by
      intro points
      rw [points] at after
      exact after
    change σ.Near s _ ∧ σ.Near s _
    simp only [State.unlink, Links.delete_p1, Links.delete_p2]
    grind
  · intro n nodeLive
    have self := inv.old n nodeLive
    have node := inv.old (.adv a) live
    simp only [State.unlink, Links.delete_p1, Links.delete_p2]
    grind

/-! ## Linking -/

theorem nodeLive_mapService (s : ServiceId) (update : Service → Service) (n : Node) :
    (σ.mapService s update).nodeLive n = σ.nodeLive n := by
  cases n with
  | head s' => by_cases same : s' = s <;> simp [State.nodeLive, State.mapService, change, same]
  | adv a => rfl
  | tran t => rfl

/-- A queue that is empty or holds transactions, as the ring it is. -/
theorem ring_of_fits (inv : WaitQueues σ) {s : ServiceId} {svc : Service}
    (current : σ.service s = some svc) (fits : σ.EmptyQueue s ∨ σ.Flagged s) :
    ∃ waiting : List TranId, σ.links.IsRing (.head s) (waiting.map .tran) ∧
      (∀ t ∈ waiting, ∃ tr, σ.tran t = some tr ∧ tr.svc = s) ∧
      ∀ waiting', σ.Queue s waiting' → waiting' = waiting := by
  by_cases flag : σ.Flagged s
  · obtain ⟨waiting, queue, members⟩ := inv.queue s flag
    refine ⟨waiting, queue.2, members, ?_⟩
    intro waiting' queue'
    have same := queue'.2.unique queue.2
    rwa [List.map_inj_right (fun _ _ => Node.tran.inj)] at same
  · have empty := fits.resolve_right flag
    have alone : σ.links.Alone (.head s) :=
      ⟨empty, (inv.anchored s svc current).empty_iff.mp empty⟩
    exact ⟨[], Links.isRing_nil_iff.mpr alone, by simp, fun _ queue => absurd queue.1 flag⟩

/-- Putting a transaction on a queue leaves the transactions that are on no queue alone. -/
theorem alone_enqueue (inv : WaitQueues σ) {t t' : TranId} {s : ServiceId} {svc : Service}
    (current : σ.service s = some svc) (fits : σ.EmptyQueue s ∨ σ.Flagged s)
    (different : t' ≠ t) (alone : σ.links.Alone (.tran t')) :
    (σ.enqueue s t).links.Alone (.tran t') := by
  obtain ⟨waiting, ring, _, _⟩ := inv.ring_of_fits current fits
  have headMem : Node.head s ∈ Node.head s :: waiting.map Node.tran := by simp
  have lastMem := (ring.neighbours_mem headMem).1
  have round := ring.p2_p1 headMem
  have far : Node.tran t' ∉ Node.head s :: waiting.map Node.tran := by
    intro inside
    exact ring.not_alone (n := .tran t') (by simpa using inside) alone
  obtain ⟨before, after⟩ := alone
  constructor <;>
    simp only [State.enqueue, State.link, State.mapService, Links.append_p1, Links.append_p2] <;>
    grind

theorem enqueue_outside {s : ServiceId} {t : TranId} {waiting : List TranId}
    (ring : σ.links.IsRing (.head s) (waiting.map .tran)) {n : Node} (new : n ≠ .tran t)
    (far : n ∉ Node.head s :: waiting.map Node.tran) :
    (σ.enqueue s t).links.p1 n = σ.links.p1 n ∧ (σ.enqueue s t).links.p2 n = σ.links.p2 n := by
  have headMem : Node.head s ∈ Node.head s :: waiting.map Node.tran := by simp
  have lastMem := (ring.neighbours_mem headMem).1
  have round := ring.p2_p1 headMem
  simp only [State.enqueue, State.link, State.mapService, Links.append_p1, Links.append_p2]
  grind

theorem enqueue_last {s : ServiceId} {svc : Service} {t : TranId} {waiting : List TranId}
    (current : σ.service s = some svc) (ring : σ.links.IsRing (.head s) (waiting.map .tran))
    (alone : σ.links.Alone (.tran t)) : (σ.enqueue s t).Queue s (waiting ++ [t]) := by
  refine ⟨⟨{ svc with waitContainsTransactions := true }, ?_, rfl⟩, ?_⟩
  · simp [State.enqueue, State.link, State.mapService, change, current]
  · rw [List.map_append]
    refine ring.append fun inside => ?_
    exact ring.not_alone (n := .tran t) (by simpa using inside) alone

theorem enqueue_other (inv : WaitQueues σ) {s s' : ServiceId} {t : TranId}
    {waiting waiting' : List TranId} (ring : σ.links.IsRing (.head s) (waiting.map .tran))
    (members : ∀ t ∈ waiting, ∃ tr, σ.tran t = some tr ∧ tr.svc = s)
    (alone : σ.links.Alone (.tran t)) (different : s' ≠ s) (queue : σ.Queue s' waiting') :
    (σ.enqueue s t).Queue s' waiting' := by
  have members' := inv.queue_members queue
  obtain ⟨⟨svc', current', flag⟩, ring'⟩ := queue
  refine ⟨⟨svc', ?_, flag⟩, ring'.congr ?_⟩
  · simpa [State.enqueue, State.link, State.mapService, change, different] using current'
  · intro n member'
    apply enqueue_outside ring
    · rintro rfl
      exact ring'.not_alone (n := .tran t) (by simpa using member') alone
    · intro member
      simp only [List.mem_cons, List.mem_map] at member member'
      grind

/-- Putting a transaction on the queue of its service. -/
theorem enqueue (inv : WaitQueues σ) {t : TranId} {tr : Transaction} {svc : Service}
    (found : σ.tran t = some tr) (current : σ.service tr.svc = some svc)
    (alone : σ.links.Alone (.tran t)) (fits : σ.EmptyQueue tr.svc ∨ σ.Flagged tr.svc) :
    WaitQueues (σ.enqueue tr.svc t) := by
  obtain ⟨waiting, ring, members, unique⟩ := inv.ring_of_fits current fits
  have headMem : Node.head tr.svc ∈ Node.head tr.svc :: waiting.map Node.tran := by simp
  have lastMem := (ring.neighbours_mem headMem).1
  have round := ring.p2_p1 headMem
  have longer : (σ.enqueue tr.svc t).Queue tr.svc (waiting ++ [t]) :=
    enqueue_last current ring alone
  have live : ∀ n, (σ.enqueue tr.svc t).nodeLive n = σ.nodeLive n :=
    nodeLive_mapService tr.svc _
  have service : ∀ s, s ≠ tr.svc → (σ.enqueue tr.svc t).service s = σ.service s := by
    intro s different
    simp [State.enqueue, State.link, State.mapService, change, different]
  have other : ∀ s waiting', s ≠ tr.svc → σ.Queue s waiting' →
      (σ.enqueue tr.svc t).Queue s waiting' :=
    fun _ _ different => inv.enqueue_other ring members alone different
  constructor
  · intro s flag
    by_cases same : s = tr.svc
    · subst same
      refine ⟨waiting ++ [t], longer, ?_⟩
      intro t' inside
      rcases List.mem_append.mp inside with inside | last
      · exact members t' inside
      · obtain rfl := List.mem_singleton.mp last
        exact ⟨tr, found, rfl⟩
    · obtain ⟨svc', current', flag⟩ := flag
      obtain ⟨waiting', queue', members'⟩ :=
        inv.queue s ⟨svc', (service s same).symm.trans current', flag⟩
      exact ⟨waiting', other s waiting' same queue', members'⟩
  · intro t' tr' found'
    have found' : σ.tran t' = some tr' := found'
    by_cases same : t' = t
    · subst same
      obtain rfl := Option.some.inj (found.symm.trans found')
      exact .inr ⟨waiting ++ [t'], longer, by simp⟩
    · rcases inv.tran t' tr' found' with alone' | ⟨waiting', queue', member'⟩
      · exact .inl (inv.alone_enqueue current fits same alone')
      · right
        by_cases sameSvc : tr'.svc = tr.svc
        · rw [sameSvc] at queue' ⊢
          obtain rfl := unique waiting' queue'
          exact ⟨waiting' ++ [t], longer, List.mem_append_left _ member'⟩
        · exact ⟨waiting', other _ _ sameSvc queue', member'⟩
  · intro s svc' current'
    have headLive : σ.nodeLive (.head s) = true :=
      (live _).symm.trans (Option.isSome_of_eq_some current')
    obtain ⟨svc'', current''⟩ := Option.isSome_iff_exists.mp headLive
    have lastLive : σ.nodeLive (σ.links.p1 (.head tr.svc)) = true := by
      simp only [List.mem_cons, List.mem_map] at lastMem
      rcases lastMem with last | ⟨t', inside, last⟩
      · rw [last]
        exact Option.isSome_of_eq_some current
      · obtain ⟨tr', found', _⟩ := members t' inside
        rw [← last]
        exact Option.isSome_of_eq_some found'
    simp only [live]
    refine (inv.anchored s svc'' current'').append headLive lastLive ?_ (by simp)
    by_cases same : s = tr.svc
    · exact .inl (by rw [same])
    · right
      rw [round]
      simp only [List.mem_cons, List.mem_map] at lastMem
      grind
  · intro a v advert
    have := enqueue_outside (t := t) ring (n := .adv a) (by simp) (by simp)
    rw [this.1, this.2]
    exact inv.adv a v advert
  · intro s svc' current' flag
    have different : s ≠ tr.svc := by
      rintro rfl
      have := (flagged_of_live current').mp longer.1
      simp [flag] at this
    have := enqueue_outside (t := t) ring (n := .head s) (by simp) (by simpa using different)
    rw [this.1, this.2]
    exact inv.head s svc' ((service s different).symm.trans current') flag
  · intro n nodeLive
    rw [live] at nodeLive
    have self := inv.old n nodeLive
    have node := inv.old (.tran t) (Option.isSome_of_eq_some found)
    have head := inv.old (.head tr.svc) (Option.isSome_of_eq_some current)
    simp only [State.enqueue, State.link, State.mapService, Links.append_p1, Links.append_p2]
    grind

theorem park_near (inv : WaitQueues σ) {s : ServiceId} {svc : Service}
    (current : σ.service s = some svc) (fits : σ.Flagged s → σ.EmptyQueue s)
    (lastLive : σ.nodeLive (σ.links.p1 (.head s)) = true) :
    σ.Near s (σ.links.p1 (.head s)) ∧ σ.Near s (σ.links.p2 (.head s)) ∧
      σ.Near s (σ.links.p2 (σ.links.p1 (.head s))) := by
  have ends : σ.Near s (σ.links.p1 (.head s)) ∧ σ.Near s (σ.links.p2 (.head s)) := by
    by_cases flag : σ.Flagged s
    · have empty := fits flag
      have empty' := (inv.anchored s svc current).empty_iff.mp empty
      rw [State.EmptyQueue] at empty
      rw [empty, empty']
      exact ⟨rfl, rfl⟩
    · exact inv.head s svc current (by simpa [flagged_of_live current] using flag)
  refine ⟨ends.1, ends.2, ?_⟩
  cases last : σ.links.p1 (.head s) with
  | head s' =>
      obtain rfl : s' = s := by simpa [last, State.Near] using ends.1
      exact ends.2
  | adv b =>
      rw [last] at lastLive
      obtain ⟨w, found⟩ := Option.isSome_iff_exists.mp lastLive
      have same : w.svc = s := by
        have := ends.1
        rw [last] at this
        exact this w found
      exact same ▸ (inv.adv b w found).2
  | tran t => simp [last, State.Near] at ends

/-- Parking an advertisement changes no link of a transaction. -/
theorem park_tran (inv : WaitQueues σ) {s : ServiceId} {a : AdvertId}
    (fits : σ.Flagged s → σ.EmptyQueue s) (linkable : σ.Linkable s (.adv a)) (t : TranId) :
    (σ.park s a).links.p1 (.tran t) = σ.links.p1 (.tran t) ∧
      (σ.park s a).links.p2 (.tran t) = σ.links.p2 (.tran t) := by
  obtain ⟨headLive, _, lastLive, _⟩ := linkable
  obtain ⟨svc, current⟩ := Option.isSome_iff_exists.mp headLive
  obtain ⟨last, _, second⟩ := inv.park_near current fits lastLive
  have notLast : σ.links.p1 (.head s) ≠ .tran t := by
    intro points
    rw [points] at last
    exact last
  have notSecond : σ.links.p2 (σ.links.p1 (.head s)) ≠ .tran t := by
    intro points
    rw [points] at second
    exact second
  simp only [State.park, State.link, State.mapService, Links.append_p1, Links.append_p2]
  grind

theorem park_head (inv : WaitQueues σ) {s s' : ServiceId} {a : AdvertId}
    (fits : σ.Flagged s → σ.EmptyQueue s) (linkable : σ.Linkable s (.adv a)) (different : s' ≠ s) :
    (σ.park s a).links.p1 (.head s') = σ.links.p1 (.head s') := by
  obtain ⟨headLive, _, lastLive, _⟩ := linkable
  obtain ⟨svc, current⟩ := Option.isSome_iff_exists.mp headLive
  obtain ⟨_, _, second⟩ := inv.park_near current fits lastLive
  have notSecond : σ.links.p2 (σ.links.p1 (.head s)) ≠ .head s' := by
    intro points
    rw [points] at second
    exact different second
  simp only [State.park, State.link, State.mapService, Links.append_p1]
  grind

/-- Parking an advertisement changes links only near its service. -/
theorem park_far (inv : WaitQueues σ) {a : AdvertId} {v : Advert} (advert : σ.advert a = some v)
    (fits : σ.Flagged v.svc → σ.EmptyQueue v.svc) (linkable : σ.Linkable v.svc (.adv a)) {n : Node}
    (far : ¬σ.Near v.svc n) :
    (σ.park v.svc a).links.p1 n = σ.links.p1 n ∧ (σ.park v.svc a).links.p2 n = σ.links.p2 n := by
  obtain ⟨headLive, _, lastLive, _⟩ := linkable
  obtain ⟨svc, current⟩ := Option.isSome_iff_exists.mp headLive
  obtain ⟨lastNear, _, second⟩ := inv.park_near current fits lastLive
  have self : σ.Near v.svc (.adv a) := by
    intro v' found'
    rw [Option.some.inj (found'.symm.trans advert)]
  have apart : ∀ {m}, σ.Near v.svc m → n ≠ m := by
    rintro m near rfl
    exact far near
  have h1 := apart self
  have h2 := apart lastNear
  have h3 := apart second
  simp only [State.park, State.link, State.mapService, Links.append_p1, Links.append_p2]
  grind

/-- Putting an advertisement on the queue of its service, linked already or not. -/
theorem park (inv : WaitQueues σ) {a : AdvertId} {v : Advert} (advert : σ.advert a = some v)
    (fits : σ.Flagged v.svc → σ.EmptyQueue v.svc) (linkable : σ.Linkable v.svc (.adv a)) :
    WaitQueues (σ.park v.svc a) := by
  have tranSame := inv.park_tran fits linkable
  have ⟨headLive, advLive, lastLive, firstLive⟩ := linkable
  obtain ⟨svc, current⟩ := Option.isSome_iff_exists.mp headLive
  obtain ⟨lastNear, firstNear, second⟩ := inv.park_near current fits lastLive
  have self : σ.Near v.svc (.adv a) := by
    intro v' found'
    rw [Option.some.inj (found'.symm.trans advert)]
  have headNear : σ.Near v.svc (.head v.svc) := rfl
  have live : ∀ n, (σ.park v.svc a).nodeLive n = σ.nodeLive n :=
    nodeLive_mapService v.svc _
  have service : ∀ s, s ≠ v.svc → (σ.park v.svc a).service s = σ.service s := by
    intro s different
    simp [State.park, State.link, State.mapService, change, different]
  have unflagged : ¬(σ.park v.svc a).Flagged v.svc := by
    simp [State.Flagged, State.park, State.link, State.mapService, change, current]
  have far : ∀ n, (∀ s, n = .head s → s ≠ v.svc) → (∀ b w, n = .adv b → σ.advert b = some w →
      w.svc ≠ v.svc) → σ.nodeLive n = true →
      (σ.park v.svc a).links.p1 n = σ.links.p1 n ∧ (σ.park v.svc a).links.p2 n = σ.links.p2 n := by
    intro n otherHead otherAdv nodeLive
    refine inv.park_far advert fits linkable ?_
    cases n with
    | head s => exact otherHead s rfl
    | adv b =>
        obtain ⟨w, found⟩ := Option.isSome_iff_exists.mp nodeLive
        exact fun near => otherAdv b w rfl found (near w found)
    | tran t => exact id
  have other : ∀ s waiting, s ≠ v.svc → σ.Queue s waiting → (σ.park v.svc a).Queue s waiting := by
    intro s waiting different queue
    obtain ⟨⟨svc', current', flag⟩, ring⟩ := queue
    refine ⟨⟨svc', (service s different).trans current', flag⟩, ring.congr ?_⟩
    intro n member
    simp only [List.mem_cons, List.mem_map] at member
    rcases member with rfl | ⟨t, _, rfl⟩
    · exact far _ (by simpa using different) (by simp) (Option.isSome_of_eq_some current')
    · exact tranSame t
  constructor
  · intro s flag
    have different : s ≠ v.svc := by
      rintro rfl
      exact unflagged flag
    obtain ⟨svc', current', flag⟩ := flag
    obtain ⟨waiting, queue, members⟩ :=
      inv.queue s ⟨svc', (service s different).symm.trans current', flag⟩
    exact ⟨waiting, other s waiting different queue, members⟩
  · intro t tr found
    have found : σ.tran t = some tr := found
    have same := tranSame t
    rcases inv.tran t tr found with alone | ⟨waiting, queue, member⟩
    · exact .inl ⟨same.1.trans alone.1, same.2.trans alone.2⟩
    · right
      refine ⟨waiting, other _ _ ?_ queue, member⟩
      intro sameSvc
      rw [sameSvc] at queue
      have empty := queue.2.p1_head_eq_iff.mp (fits queue.1)
      simp only [List.map_eq_nil_iff] at empty
      simp [empty] at member
  · intro s svc' current'
    have headLive' : σ.nodeLive (.head s) = true :=
      (live _).symm.trans (Option.isSome_of_eq_some current')
    obtain ⟨svc'', current''⟩ := Option.isSome_iff_exists.mp headLive'
    simp only [live]
    refine (inv.anchored s svc'' current'').append headLive' lastLive ?_ (by simp)
    by_cases same : s = v.svc
    · exact .inl (by rw [same])
    · right
      constructor
      · intro points
        rw [points] at lastNear
        exact same lastNear
      · intro points
        rw [points] at second
        exact same second
  · intro b w found
    have found : σ.advert b = some w := found
    have old := inv.adv b w found
    by_cases same : w.svc = v.svc
    · rw [same] at old ⊢
      change σ.Near v.svc _ ∧ σ.Near v.svc _
      simp only [State.park, State.link, State.mapService, Links.append_p1, Links.append_p2]
      grind
    · have := far (.adv b) (by simp) (by grind) (Option.isSome_of_eq_some found)
      rw [this.1, this.2]
      exact old
  · intro s svc' current' flag
    change σ.Near s _ ∧ σ.Near s _
    by_cases same : s = v.svc
    · subst same
      simp only [State.park, State.link, State.mapService, Links.append_p1, Links.append_p2]
      grind
    · have current' : σ.service s = some svc' := (service s same).symm.trans current'
      have := far (.head s) (by simpa using same) (by simp) (Option.isSome_of_eq_some current')
      rw [this.1, this.2]
      exact inv.head s svc' current' flag
  · intro n nodeLive
    rw [live] at nodeLive
    have h1 := inv.old n nodeLive
    have h2 := inv.old (.adv a) advLive
    have h3 := inv.old (.head v.svc) headLive
    have h4 := inv.old _ lastLive
    simp only [State.park, State.link, State.mapService, Links.append_p1, Links.append_p2]
    grind

/-! ## New objects -/

theorem init_old (inv : WaitQueues σ) {new n : Node} (fresh : new.id = σ.next)
    (live : σ.nodeLive n = true) :
    n ≠ new ∧ (σ.links.init new).p1 n = σ.links.p1 n ∧ (σ.links.init new).p2 n = σ.links.p2 n ∧
      σ.links.p1 n ≠ new ∧ σ.links.p2 n ≠ new := by
  have bound := inv.old n live
  have different : n ≠ new := by
    rintro rfl
    omega
  refine ⟨different, ?_, ?_, ?_, ?_⟩
  · rw [Links.init_p1, if_neg different]
  · rw [Links.init_p2, if_neg different]
  · rintro rfl
    omega
  · rintro rfl
    omega

theorem init_alone (links : Links Node) (new : Node) : (links.init new).Alone new :=
  ⟨by simp [Links.init_p1], by simp [Links.init_p2]⟩

theorem init_queue (inv : WaitQueues σ) {new : Node} (fresh : new.id = σ.next) {s : ServiceId}
    {waiting : List TranId} (queue : σ.Queue s waiting) :
    (σ.links.init new).IsRing (.head s) (waiting.map .tran) := by
  refine queue.2.congr ?_
  intro n member
  have := inv.init_old fresh (members_live queue (inv.queue_members queue) n member)
  exact ⟨this.2.1, this.2.2.1⟩

theorem init_anchored (inv : WaitQueues σ) {new : Node} {live : Node → Prop}
    (fresh : new.id = σ.next) (grown : ∀ n, live n → σ.nodeLive n = true ∨ n = new) {s : ServiceId}
    {svc : Service} (current : σ.service s = some svc) :
    (σ.links.init new).Anchored live (.head s) := by
  have old := inv.anchored s svc current
  have headLive : σ.nodeLive (.head s) = true := Option.isSome_of_eq_some current
  have same := inv.init_old fresh headLive
  have self := init_alone σ.links new
  constructor
  · rw [same.2.1, same.2.2.1]
    exact old.empty_iff
  · intro n m nLive mLive nPoints mPoints
    rcases grown n nLive with nOld | rfl
    · rcases grown m mLive with mOld | rfl
      · rw [(inv.init_old fresh nOld).2.1] at nPoints
        rw [(inv.init_old fresh mOld).2.1] at mPoints
        exact old.p1_unique n m nOld mOld nPoints mPoints
      · exact absurd (self.1.symm.trans mPoints).symm same.1
    · exact absurd (self.1.symm.trans nPoints).symm same.1
  · intro n m nLive mLive nPoints mPoints
    rcases grown n nLive with nOld | rfl
    · rcases grown m mLive with mOld | rfl
      · rw [(inv.init_old fresh nOld).2.2.1] at nPoints
        rw [(inv.init_old fresh mOld).2.2.1] at mPoints
        exact old.p2_unique n m nOld mOld nPoints mPoints
      · exact absurd (self.2.symm.trans mPoints).symm same.1
    · exact absurd (self.2.symm.trans nPoints).symm same.1

/-- Creating an object whose link field is a ring of its own. -/
theorem create {τ : State} (inv : WaitQueues σ) (new : Node) (fresh : new.id = σ.next)
    (links : τ.links = σ.links.init new) (next : τ.next = σ.next + 1)
    (service : ∀ s svc, τ.service s = some svc ↔
      σ.service s = some svc ∨ new = .head s ∧ τ.service s = some svc)
    (advert : ∀ a v, τ.advert a = some v ↔
      σ.advert a = some v ∨ new = .adv a ∧ τ.advert a = some v)
    (tran : ∀ t tr, τ.tran t = some tr ↔
      σ.tran t = some tr ∨ new = .tran t ∧ τ.tran t = some tr)
    (empty : ∀ s, new = .head s → ¬τ.Flagged s) : WaitQueues τ := by
  have grown : ∀ n, τ.nodeLive n = true → σ.nodeLive n = true ∨ n = new := by
    intro n live
    cases n with
    | head s =>
        obtain ⟨svc, current⟩ := Option.isSome_iff_exists.mp live
        rcases (service s svc).mp current with old | ⟨rfl, _⟩
        · exact .inl (Option.isSome_of_eq_some old)
        · exact .inr rfl
    | adv a =>
        obtain ⟨v, current⟩ := Option.isSome_iff_exists.mp live
        rcases (advert a v).mp current with old | ⟨rfl, _⟩
        · exact .inl (Option.isSome_of_eq_some old)
        · exact .inr rfl
    | tran t =>
        obtain ⟨tr, current⟩ := Option.isSome_iff_exists.mp live
        rcases (tran t tr).mp current with old | ⟨rfl, _⟩
        · exact .inl (Option.isSome_of_eq_some old)
        · exact .inr rfl
  have self := init_alone σ.links new
  have near : ∀ s n, n ≠ new → (τ.Near s n ↔ σ.Near s n) := by
    intro s n different
    cases n with
    | head s' => rfl
    | adv a =>
        have : ∀ v, τ.advert a = some v ↔ σ.advert a = some v := by
          intro v
          rw [advert]
          grind
        simp [State.Near, this]
    | tran t => rfl
  have flagged : ∀ s, τ.Flagged s ↔ σ.Flagged s := by
    intro s
    constructor
    · rintro ⟨svc, current, flag⟩
      rcases (service s svc).mp current with old | ⟨same, _⟩
      · exact ⟨svc, old, flag⟩
      · exact absurd ⟨svc, current, flag⟩ (empty s same)
    · rintro ⟨svc, current, flag⟩
      exact ⟨svc, (service s svc).mpr (.inl current), flag⟩
  have queue : ∀ s waiting, σ.Queue s waiting → τ.Queue s waiting :=
    fun s waiting queue => ⟨(flagged s).mpr queue.1, links ▸ inv.init_queue fresh queue⟩
  constructor
  · intro s flag
    obtain ⟨waiting, ring, members⟩ := inv.queue s ((flagged s).mp flag)
    refine ⟨waiting, queue s waiting ring, ?_⟩
    intro t member
    obtain ⟨tr, current, svc⟩ := members t member
    exact ⟨tr, (tran t tr).mpr (.inl current), svc⟩
  · intro t tr current
    rw [links]
    rcases (tran t tr).mp current with old | ⟨rfl, _⟩
    · have same := inv.init_old fresh (n := .tran t) (Option.isSome_of_eq_some old)
      rcases inv.tran t tr old with alone | ⟨waiting, ring, member⟩
      · exact .inl ⟨same.2.1.trans alone.1, same.2.2.1.trans alone.2⟩
      · exact .inr ⟨waiting, queue _ waiting ring, member⟩
    · exact .inl self
  · intro s svc current
    rw [links]
    rcases (service s svc).mp current with old | ⟨rfl, _⟩
    · exact inv.init_anchored fresh grown old
    · have only : ∀ n, τ.nodeLive n = true → (σ.links.init (.head s)).p1 n = .head s ∨
          (σ.links.init (.head s)).p2 n = .head s → n = .head s := by
        intro n live points
        rcases grown n live with old | rfl
        · have same := inv.init_old fresh old
          rw [same.2.1, same.2.2.1] at points
          exact (points.elim same.2.2.2.1 same.2.2.2.2).elim
        · rfl
      constructor
      · rw [self.1, self.2]
      · intro n m nLive mLive nPoints mPoints
        rw [only n nLive (.inl nPoints), only m mLive (.inl mPoints)]
      · intro n m nLive mLive nPoints mPoints
        rw [only n nLive (.inr nPoints), only m mLive (.inr mPoints)]
  · intro a v current
    rw [links]
    rcases (advert a v).mp current with old | ⟨rfl, _⟩
    · have same := inv.init_old fresh (n := .adv a) (Option.isSome_of_eq_some old)
      rw [same.2.1, same.2.2.1, near _ _ same.2.2.2.1, near _ _ same.2.2.2.2]
      exact inv.adv a v old
    · rw [self.1, self.2]
      have : τ.Near v.svc (.adv a) := by
        intro v' current'
        rw [Option.some.inj (current'.symm.trans current)]
      exact ⟨this, this⟩
  · intro s svc current flag
    rw [links]
    rcases (service s svc).mp current with old | ⟨rfl, _⟩
    · have same := inv.init_old fresh (n := .head s) (Option.isSome_of_eq_some old)
      rw [same.2.1, same.2.2.1, near _ _ same.2.2.2.1, near _ _ same.2.2.2.2]
      exact inv.head s svc old flag
    · rw [self.1, self.2]
      exact ⟨rfl, rfl⟩
  · intro n live
    rw [links, next]
    rcases grown n live with old | rfl
    · have same := inv.init_old fresh old
      have bound := inv.old n old
      rw [same.2.1, same.2.2.1]
      omega
    · rw [self.1, self.2, fresh]
      omega

theorem fresh_service (inv : WaitQueues σ) : σ.service σ.next = none := by
  by_contra live
  exact absurd (inv.old (.head σ.next) (Option.isSome_iff_ne_none.mpr live)).1 (Nat.lt_irrefl _)

theorem fresh_advert (inv : WaitQueues σ) : σ.advert σ.next = none := by
  by_contra live
  exact absurd (inv.old (.adv σ.next) (Option.isSome_iff_ne_none.mpr live)).1 (Nat.lt_irrefl _)

theorem fresh_tran (inv : WaitQueues σ) {t : TranId} (new : σ.next ≤ t) : σ.tran t = none := by
  by_contra live
  exact absurd (inv.old (.tran t) (Option.isSome_iff_ne_none.mpr live)).1 (Nat.not_lt.mpr new)

theorem addTran (inv : WaitQueues σ) (tr : Transaction) : WaitQueues (σ.addTran tr) := by
  have fresh := inv.fresh_tran (Nat.le_refl _)
  refine inv.create (.tran σ.next) rfl rfl rfl (by simp [State.addTran])
    (by simp [State.addTran]) ?_ (by simp)
  intro t tr'
  simp only [State.addTran, put_eq_some_iff]
  grind

theorem addAdvert (inv : WaitQueues σ) (v : Advert) : WaitQueues (σ.addAdvert v) := by
  have fresh := inv.fresh_advert
  refine inv.create (.adv σ.next) rfl rfl rfl (by simp [State.addAdvert]) ?_
    (by simp [State.addAdvert]) (by simp)
  intro a v'
  simp only [State.addAdvert, put_eq_some_iff]
  grind

theorem addService (inv : WaitQueues σ) (svcname : Bytes) : WaitQueues (σ.addService svcname) := by
  have fresh := inv.fresh_service
  refine inv.create (.head σ.next) rfl rfl rfl ?_ (by simp [State.addService])
    (by simp [State.addService]) ?_
  · intro s svc
    simp only [State.addService, put_eq_some_iff]
    grind
  · intro s same
    obtain rfl := Node.head.inj same
    simp [State.Flagged, State.addService, put]

/-! ## Freed objects -/

/-- Freeing objects that are on no queue of transactions. -/
theorem shrink {τ : State} (inv : WaitQueues σ) (links : τ.links = σ.links)
    (next : τ.next = σ.next) (service : ∀ s svc, τ.service s = some svc → σ.service s = some svc)
    (advert : ∀ a v, τ.advert a = some v → σ.advert a = some v)
    (tran : ∀ t tr, τ.tran t = some tr → σ.tran t = some tr)
    (keepsTran : ∀ s t tr, τ.Flagged s → σ.Queued s t → σ.tran t = some tr → τ.tran t = some tr)
    (keepsQueue : ∀ s t tr, τ.tran t = some tr → σ.Queued s t → τ.Flagged s) : WaitQueues τ := by
  have live : ∀ n, τ.nodeLive n = true → σ.nodeLive n = true := by
    intro n live
    cases n with
    | head s =>
        obtain ⟨svc, current⟩ := Option.isSome_iff_exists.mp live
        exact Option.isSome_of_eq_some (service s svc current)
    | adv a =>
        obtain ⟨v, current⟩ := Option.isSome_iff_exists.mp live
        exact Option.isSome_of_eq_some (advert a v current)
    | tran t =>
        obtain ⟨tr, current⟩ := Option.isSome_iff_exists.mp live
        exact Option.isSome_of_eq_some (tran t tr current)
  have near : ∀ s n, σ.Near s n → τ.Near s n := by
    intro s n near
    cases n with
    | head s' => exact near
    | adv a => exact fun v current => near v (advert a v current)
    | tran t => exact near
  have flagged : ∀ s, τ.Flagged s → σ.Flagged s :=
    fun s ⟨svc, current, flag⟩ => ⟨svc, service s svc current, flag⟩
  constructor
  · intro s flag
    obtain ⟨waiting, queue, members⟩ := inv.queue s (flagged s flag)
    refine ⟨waiting, ⟨flag, links ▸ queue.2⟩, ?_⟩
    intro t member
    obtain ⟨tr, current, svc⟩ := members t member
    exact ⟨tr, keepsTran s t tr flag ⟨waiting, queue, member⟩ current, svc⟩
  · intro t tr current
    rw [links]
    rcases inv.tran t tr (tran t tr current) with alone | ⟨waiting, queue, member⟩
    · exact .inl alone
    · exact .inr ⟨waiting, ⟨keepsQueue _ t tr current ⟨waiting, queue, member⟩, links ▸ queue.2⟩,
        member⟩
  · intro s svc current
    rw [links]
    exact (inv.anchored s svc (service s svc current)).mono live
  · intro a v current
    rw [links]
    exact (inv.adv a v (advert a v current)).imp (near _ _) (near _ _)
  · intro s svc current flag
    rw [links]
    exact (inv.head s svc (service s svc current) flag).imp (near _ _) (near _ _)
  · intro n current
    rw [links, next]
    exact inv.old n (live n current)

/-- A transaction that is a ring of its own goes away. -/
theorem dropTran (inv : WaitQueues σ) {t : TranId} (alone : σ.links.Alone (.tran t)) :
    WaitQueues (σ.dropTran t) := by
  refine inv.shrink rfl rfl (fun _ _ => id) (fun _ _ => id) ?_ ?_ ?_
  · intro t' tr'
    simp only [State.dropTran, put_eq_some_iff]
    grind
  · intro s t' tr' _ queued current
    simp only [State.dropTran, put_eq_some_iff]
    right
    refine ⟨?_, current⟩
    rintro rfl
    exact not_alone_of_queued queued alone
  · rintro s t' tr' _ ⟨waiting, queue, _⟩
    exact queue.1

theorem dropAdvert (inv : WaitQueues σ) (a : AdvertId) : WaitQueues (σ.dropAdvert a) := by
  refine inv.shrink rfl rfl (fun _ _ => id) ?_ (fun _ _ => id) (fun _ _ _ _ _ => id) ?_
  · intro b v
    simp only [State.dropAdvert, put_eq_some_iff]
    grind
  · rintro s t' tr' _ ⟨waiting, queue, _⟩
    exact queue.1

/-- A service whose queue is empty goes away. -/
theorem dropService (inv : WaitQueues σ) {s : ServiceId} (empty : σ.EmptyQueue s) :
    WaitQueues (σ.dropService s) := by
  refine inv.shrink rfl rfl ?_ (fun _ _ => id) (fun _ _ => id) (fun _ _ _ _ _ => id) ?_
  · intro s' svc
    simp only [State.dropService, put_eq_some_iff]
    grind
  · rintro s' t tr _ ⟨waiting, ⟨⟨svc, current, flag⟩, ring⟩, member⟩
    refine ⟨svc, ?_, flag⟩
    simp only [State.dropService, put_eq_some_iff]
    right
    refine ⟨?_, current⟩
    rintro rfl
    have := ring.p1_head_eq_iff.mp empty
    simp only [List.map_eq_nil_iff] at this
    simp [this] at member

/-- Deleting a current transaction. -/
theorem delTran (inv : WaitQueues σ) {t : TranId} {tr : Transaction}
    (current : σ.tran t = some tr) : WaitQueues (σ.delTran t tr) :=
  ((inv.unlink_tran current).dropTran (Links.delete_alone _ _)).congr rfl rfl rfl (fun _ => rfl)
    (Nat.le_refl _)

theorem dismiss (inv : WaitQueues σ) {adverts : List AdvertId}
    (dismissable : σ.Dismissable adverts) : WaitQueues (σ.dismiss adverts) := by
  induction adverts generalizing σ with
  | nil => exact inv
  | cons a adverts ih =>
      obtain ⟨unlinkable, rest⟩ := dismissable
      obtain ⟨v, current⟩ := Option.isSome_iff_exists.mp unlinkable.1
      exact ih (inv.unlink_adv current unlinkable) rest

theorem dismiss_tran (inv : WaitQueues σ) {adverts : List AdvertId}
    (dismissable : σ.Dismissable adverts) (t : TranId) :
    (σ.dismiss adverts).links.p1 (.tran t) = σ.links.p1 (.tran t) ∧
      (σ.dismiss adverts).links.p2 (.tran t) = σ.links.p2 (.tran t) := by
  induction adverts generalizing σ with
  | nil => exact ⟨rfl, rfl⟩
  | cons a adverts ih =>
      obtain ⟨unlinkable, rest⟩ := dismissable
      obtain ⟨v, current⟩ := Option.isSome_iff_exists.mp unlinkable.1
      have same := inv.unlink_adv_tran current t
      have later := ih (inv.unlink_adv current unlinkable) rest
      exact ⟨later.1.trans same.1, later.2.trans same.2⟩

end WaitQueues

end Switchboard
end Xatmi
