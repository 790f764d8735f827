import Xatmi.Lib.Threads
import Xatmi.Switchboard.Handling

/-!
# Undamaged wait queues

As long as no advertisement is linked while it is linked, the wait queues are a family of rings:
every entry is a transaction or an advertisement of the service it waits for, and the flag of the
service says which.
-/

namespace Xatmi
namespace Switchboard

open Intrusive

/-- The node is a transaction. -/
def Node.isTran : Node → Bool
  | .tran _ => true
  | _ => false

namespace State

/-- Heads of wait queues: the nodes of current services. -/
def isHead (σ : State) : Node → Prop
  | .head s => ∃ svc, σ.service s = some svc
  | _ => False

/-- The wait queue a current advertisement or transaction belongs to. -/
def home (σ : State) : Node → Option Node
  | .head _ => none
  | .adv a => (σ.advert a).map fun v => .head v.svc
  | .tran t => (σ.tran t).map fun tr => .head tr.svc

variable {σ τ : State}

theorem home_adv {a : AdvertId} {v : Advert} (advert : σ.advert a = some v) :
    σ.home (.adv a) = some (.head v.svc) := by
  simp [home, advert]

theorem home_tran {t : TranId} {tr : Transaction} (found : σ.tran t = some tr) :
    σ.home (.tran t) = some (.head tr.svc) := by
  simp [home, found]

theorem home_of_isHead {h : Node} (head : σ.isHead h) : τ.home h = none := by
  cases h with
  | head s => rfl
  | adv | tran => exact head.elim

theorem home_congr (advert : ∀ a, (τ.advert a).map Advert.svc = (σ.advert a).map Advert.svc)
    (tran : ∀ t, (τ.tran t).map Transaction.svc = (σ.tran t).map Transaction.svc) :
    τ.home = σ.home := by
  funext n
  cases n with
  | head s => rfl
  | adv a =>
      have same := congrArg (Option.map Node.head) (advert a)
      rwa [Option.map_map, Option.map_map] at same
  | tran t =>
      have same := congrArg (Option.map Node.head) (tran t)
      rwa [Option.map_map, Option.map_map] at same

theorem isHead_congr
    (service : ∀ s, (∃ svc, τ.service s = some svc) ↔ ∃ svc, σ.service s = some svc) :
    τ.isHead = σ.isHead := by
  funext n
  cases n with
  | head s => exact propext (service s)
  | adv | tran => rfl

end State

/-- The wait queues are rings of entries of one kind. -/
structure Rings (φ : Phase) (σ : State) : Prop where
  threaded : σ.links.Threaded σ.isHead σ.home
  kind : ∀ n s svc, σ.home n = some (.head s) → ¬σ.links.Alone n → σ.service s = some svc →
    svc.waitContainsTransactions = n.isTran
  /-- An advertisement that is being deleted is off its queue. -/
  det : ∀ a v, φ.det = some a → σ.advert a = some v → σ.links.Alone (.adv a)

namespace Rings

variable {φ φ' : Phase} {σ τ : State} {σ₀ : State} {e : Event}

theorem start : Rings {} .start where
  threaded := by
    have home : State.start.home = fun _ => none := by
      funext n
      cases n <;> rfl
    rw [home]
    exact Links.Threaded.initial
  kind := by simp [State.start]
  det := by simp

/-- Effects on what the wait queues do not depend on. -/
theorem congr (inv : Rings φ σ) (links : τ.links = σ.links) (service : τ.service = σ.service)
    (advert : τ.advert = σ.advert)
    (tran : ∀ t, (τ.tran t).map Transaction.svc = (σ.tran t).map Transaction.svc)
    (det : φ'.det = φ.det) : Rings φ' τ := by
  have home : τ.home = σ.home := State.home_congr (fun _ => by rw [advert]) tran
  have heads : τ.isHead = σ.isHead := State.isHead_congr fun _ => by rw [service]
  constructor
  · rw [links, home, heads]
    exact inv.threaded
  · rw [links, home, service]
    exact inv.kind
  · rw [links, advert, det]
    exact inv.det

/-- Linking an entry of the kind that the queue is for, or the first entry. -/
theorem link (inv : Rings φ σ) {n : Node} {s : ServiceId} {svc : Service}
    (at_ : σ.home n = some (.head s)) (alone : σ.links.Alone n) (service : σ.service s = some svc)
    (fits : σ.EmptyQueue s ∨ svc.waitContainsTransactions = n.isTran) (noDet : φ.det = none) :
    Rings φ ((σ.mapService s fun svc => { svc with waitContainsTransactions := n.isTran }).link
      s n) := by
  have heads : (((σ.mapService s fun svc => { svc with waitContainsTransactions := n.isTran }).link
      s n)).isHead = σ.isHead := State.isHead_congr fun _ => exists_change_eq_some_iff
  have head : σ.isHead (.head s) := ⟨svc, service⟩
  obtain ⟨threaded, _, others⟩ := inv.threaded.append head at_ alone
  refine ⟨heads ▸ threaded, ?_, by simp [noDet]⟩
  intro m s' svc' at' linked service'
  obtain ⟨old, service'', rfl⟩ := change_eq_some_iff.mp service'
  by_cases self : m = n
  · subst self
    obtain rfl : s' = s := by simpa using at'.symm.trans at_
    rw [if_pos rfl]
  · have linked' : ¬σ.links.Alone m := fun before => linked ((others m _ self at').mpr before)
    have before := inv.kind m s' old at' linked' service''
    split
    · rename_i same
      subst same
      obtain rfl := Option.some.inj (service.symm.trans service'')
      rcases fits with empty | flag
      · obtain ⟨nodes, ring, _⟩ := inv.threaded.ring _ head
        have member := inv.threaded.mem_of_not_alone at' linked' ring
        rw [ring.p1_head_eq_iff.mp empty] at member
        cases member
      · exact flag.symm.trans before
    · exact before

theorem unlink (inv : Rings φ σ) {n h : Node} (at_ : σ.home n = some h) : Rings φ (σ.unlink n) := by
  obtain ⟨threaded, others⟩ := inv.threaded.delete at_
  have linked : ∀ {m k}, σ.home m = some k → ¬(σ.unlink n).links.Alone m → ¬σ.links.Alone m := by
    intro m k at' linked before
    by_cases self : m = n
    · subst self
      exact linked (Links.delete_alone _ _)
    · exact linked ((others m k self at').mpr before)
  refine ⟨threaded, ?_, ?_⟩
  · intro m s svc at' after service
    exact inv.kind m s svc at' (linked at' after) service
  · intro a v det advert
    by_contra after
    exact linked (State.home_adv advert) after (inv.det a v det advert)

/-- Taking several advertisements off their queues. -/
theorem dismiss (inv : Rings φ σ) {adverts : List AdvertId}
    (current : ∀ a ∈ adverts, ∃ v, σ.advert a = some v) :
    Rings φ (σ.dismiss adverts) ∧ ∀ n h, σ.home n = some h →
      ((σ.dismiss adverts).links.Alone n ↔ σ.links.Alone n ∨ ∃ a ∈ adverts, n = .adv a) := by
  induction adverts generalizing σ with
  | nil => exact ⟨inv, by simp [State.dismiss]⟩
  | cons a adverts ih =>
      obtain ⟨v, advert⟩ := current a List.mem_cons_self
      have at_ := State.home_adv advert
      obtain ⟨rings, alone⟩ := ih (inv.unlink at_) fun b member =>
        current b (List.mem_cons_of_mem a member)
      refine ⟨rings, fun n h at' => ?_⟩
      refine (alone n h at').trans ?_
      by_cases self : n = .adv a
      · subst self
        have : (σ.unlink (.adv a)).links.Alone (.adv a) := Links.delete_alone _ _
        simp [this]
      · have same := (inv.threaded.delete at_).2 n h self at'
        simp only [State.unlink, same, List.mem_cons, exists_eq_or_imp, self, false_or]

/-- A new object whose links are initialised. -/
theorem create (inv : Rings φ σ) (new : Node) (unused : ¬σ.isHead new)
    (homeless : σ.home new = none) (links : τ.links = σ.links.init new)
    (service : ∀ s, Node.head s ≠ new → τ.service s = σ.service s)
    (home : ∀ n, n ≠ new → τ.home n = σ.home n) (noDet : φ.det = none) : Rings φ τ := by
  have alone : τ.links.Alone new := by
    rw [links]
    exact WaitQueues.init_alone _ _
  have same : ∀ {n}, n ≠ new → (τ.links.Alone n ↔ σ.links.Alone n) := by
    intro n different
    rw [links]
    exact Links.init_alone_iff different
  constructor
  · have threaded := inv.threaded.init unused homeless
    rw [← links] at threaded
    refine threaded.regroup ?_ ?_ ?_ ?_ ?_
    · intro h isHead
      by_cases self : h = new
      · exact .inr (self ▸ alone)
      · cases h with
        | head s =>
            obtain ⟨svc, current⟩ := isHead
            exact .inl ⟨svc, service s self ▸ current⟩
        | adv | tran => exact isHead.elim
    · intro h isHead
      cases h with
      | head s =>
          obtain ⟨svc, current⟩ := isHead
          refine .inl ⟨svc, ?_⟩
          rw [service s fun self => unused (self ▸ ⟨svc, current⟩)]
          exact current
      | adv | tran => exact isHead.elim
    · intro n h at_
      by_cases self : n = new
      · exact .inr (self ▸ alone)
      · exact .inl (home n self ▸ at_)
    · intro n h at_
      refine .inl ?_
      rw [home n fun self => ?_]
      · exact at_
      · rw [self, homeless] at at_
        cases at_
    · exact fun h => State.home_of_isHead
  · intro n s svc at_ linked current
    have old : n ≠ new := by
      rintro rfl
      exact linked alone
    rw [home n old] at at_
    have linked' : ¬σ.links.Alone n := fun before => linked ((same old).mpr before)
    refine inv.kind n s svc at_ linked' ?_
    rw [← service s fun self => ?_]
    · exact current
    · rcases inv.threaded.node n _ (self ▸ at_) with apart | ⟨head, _⟩
      · exact linked' apart
      · exact unused head
  · simp [noDet]

/-- Objects that are freed while they are on no queue, and services with an empty one. -/
theorem shrink (inv : Rings φ σ) (links : τ.links = σ.links)
    (service : ∀ s svc, τ.service s = some svc → σ.service s = some svc)
    (left : ∀ s svc, σ.service s = some svc → τ.service s = some svc ∨ σ.EmptyQueue s)
    (entered : ∀ n h, τ.home n = some h → σ.home n = some h)
    (gone : ∀ n h, σ.home n = some h → τ.home n = some h ∨ σ.links.Alone n)
    (det : ∀ a v, φ'.det = some a → τ.advert a = some v → φ.det = some a ∧ σ.advert a = some v) :
    Rings φ' τ := by
  constructor
  · rw [links]
    refine inv.threaded.regroup ?_ ?_ (fun n h at_ => .inl (entered n h at_)) gone
      (fun h => State.home_of_isHead)
    · intro h head
      cases h with
      | head s =>
          obtain ⟨svc, current⟩ := head
          exact .inl ⟨svc, service s svc current⟩
      | adv | tran => exact head.elim
    · intro h head
      cases h with
      | head s =>
          obtain ⟨svc, current⟩ := head
          exact (left s svc current).imp (fun kept => ⟨svc, kept⟩) id
      | adv | tran => exact head.elim
  · rw [links]
    exact fun n s svc at_ linked current =>
      inv.kind n s svc (entered n _ at_) linked (service s svc current)
  · rw [links]
    intro a v detached advert
    obtain ⟨before, advert'⟩ := det a v detached advert
    exact inv.det a v before advert'

theorem delTran (inv : Rings φ σ) {t : TranId} {tr : Transaction} (found : σ.tran t = some tr) :
    Rings φ (σ.delTran t tr) := by
  have unlinked := inv.unlink (State.home_tran found)
  have alone : (σ.unlink (.tran t)).links.Alone (.tran t) := Links.delete_alone _ _
  have entered : ∀ n h, (σ.delTran t tr).home n = some h → σ.home n = some h := by
    intro n h at_
    cases n with
    | head s => exact at_
    | adv a => exact at_
    | tran t' =>
        obtain ⟨tr', current, rfl⟩ := Option.map_eq_some_iff.mp at_
        rcases put_eq_some_iff.mp current with ⟨_, impossible⟩ | ⟨_, current⟩
        · cases impossible
        · exact State.home_tran current
  refine unlinked.shrink rfl (fun _ _ => id) (fun _ _ current => .inl current) entered ?_
    (fun a v det advert => ⟨det, advert⟩)
  intro n h at_
  by_cases self : n = .tran t
  · exact .inr (self ▸ alone)
  · cases n with
    | head s => exact .inl at_
    | adv a => exact .inl at_
    | tran t' =>
        obtain ⟨tr', current, rfl⟩ := Option.map_eq_some_iff.mp at_
        exact .inl (State.home_tran (put_eq_some_iff.mpr (.inr ⟨fun same => self (same ▸ rfl),
          current⟩)))

theorem dropAdvert (inv : Rings φ σ) {a : AdvertId} (det : φ.det = some a) :
    Rings { φ with det := none } (σ.dropAdvert a) := by
  refine inv.shrink rfl (fun _ _ => id) (fun _ _ current => .inl current) ?_ ?_ (by simp)
  · intro n h at_
    cases n with
    | head s => exact at_
    | tran t => exact at_
    | adv b =>
        obtain ⟨v, current, rfl⟩ := Option.map_eq_some_iff.mp at_
        rcases put_eq_some_iff.mp current with ⟨_, impossible⟩ | ⟨_, current⟩
        · cases impossible
        · exact State.home_adv current
  · intro n h at_
    cases n with
    | head s => exact .inl at_
    | tran t => exact .inl at_
    | adv b =>
        obtain ⟨v, current, rfl⟩ := Option.map_eq_some_iff.mp at_
        by_cases self : b = a
        · subst self
          exact .inr (inv.det b v det current)
        · exact .inl (State.home_adv (put_eq_some_iff.mpr (.inr ⟨self, current⟩)))

theorem dropService (inv : Rings φ σ) {s : ServiceId} (empty : σ.EmptyQueue s) :
    Rings { φ with orphan := none } (σ.dropService s) := by
  refine inv.shrink rfl ?_ ?_ (fun _ _ => id) (fun _ _ at_ => .inl at_)
    (fun a v det advert => ⟨det, advert⟩)
  · intro s' svc current
    rcases put_eq_some_iff.mp current with ⟨_, impossible⟩ | ⟨_, current⟩
    · cases impossible
    · exact current
  · intro s' svc current
    by_cases self : s' = s
    · exact .inr (self ▸ empty)
    · exact .inl (put_eq_some_iff.mpr (.inr ⟨self, current⟩))

theorem reply (inv : Rings φ σ) {t : TranId} {tr : Transaction} (found : σ.tran t = some tr)
    (contents : Bytes) : Rings φ (σ.reply t tr contents) := by
  have armed : Rings φ (((σ.write tr.client (replyFrame tr contents)).nextCommand
      tr.client).mapClient tr.client fun x => { x with wait4 := none }) :=
    inv.congr rfl rfl rfl (fun _ => rfl) rfl
  exact armed.delTran found

theorem assign (inv : Rings φ σ) (a : AdvertId) (v : Advert) (t : TranId) (frame : Bytes) :
    Rings φ (σ.assign a v t frame) :=
  inv.congr rfl rfl rfl (fun _ => change_map fun _ => rfl) rfl

theorem addTran (inv : Rings φ σ) (fresh : σ.tran σ.next = none) (tr : Transaction)
    (noDet : φ.det = none) : Rings φ (σ.addTran tr) := by
  refine inv.create (.tran σ.next) id ?_ rfl (fun _ _ => rfl) ?_ noDet
  · simp [State.home, fresh]
  · intro n different
    cases n with
    | head | adv => rfl
    | tran t =>
        have other : t ≠ σ.next := fun same => different (same ▸ rfl)
        simp [State.home, State.addTran, put, other]

theorem addAdvert (inv : Rings φ σ) (fresh : σ.advert σ.next = none) (v : Advert)
    (noDet : φ.det = none) : Rings φ (σ.addAdvert v) := by
  refine inv.create (.adv σ.next) id ?_ rfl (fun _ _ => rfl) ?_ noDet
  · simp [State.home, fresh]
  · intro n different
    cases n with
    | head | tran => rfl
    | adv a =>
        have other : a ≠ σ.next := fun same => different (same ▸ rfl)
        simp [State.home, State.addAdvert, put, other]

theorem addService (inv : Rings φ σ) (fresh : σ.service σ.next = none) (svcname : Bytes)
    (noDet : φ.det = none) : Rings φ (σ.addService svcname) := by
  refine inv.create (.head σ.next) ?_ rfl rfl ?_ ?_ noDet
  · rintro ⟨svc, current⟩
    simp [fresh] at current
  · intro s different
    have other : s ≠ σ.next := fun same => different (same ▸ rfl)
    exact if_neg other
  · intro n _
    cases n <;> rfl

theorem detach (inv : Rings φ σ) {a : AdvertId} {v : Advert} (advert : σ.advert a = some v)
    (c : ClientId) : Rings { φ with det := some a } (σ.detach a c) := by
  obtain ⟨threaded, kind, _⟩ := inv.unlink (State.home_adv advert)
  refine ⟨threaded, kind, ?_⟩
  intro b w det _
  obtain rfl := Option.some.inj det
  exact Links.delete_alone _ _

section

/-! The effects on the wait queues, given that the advertisements of a client that asks for work are
on
none. -/

variable (unlinked : ∀ c a v, Commands σ₀ e c TPTWORK → σ₀.advert a = some v → v.client = c →
  σ₀.links.Alone (.adv a))

include unlinked

theorem alone_of_asked (all : Inv ⟨φ, σ⟩) {c : ClientId} {x : Client} {a : AdvertId} {v : Advert}
    (live : σ.client c = some x) (mine : a ∈ x.adverts) (advert : σ.advert a = some v)
    (asked : Commands σ₀ e c TPTWORK)
    (untouched : σ₀.advert a = some v ∧ σ.links.p1 (.adv a) = σ₀.links.p1 (.adv a) ∧
      σ.links.p2 (.adv a) = σ₀.links.p2 (.adv a)) : v.client = c ∧ σ.links.Alone (.adv a) := by
  obtain ⟨_, w, advert', owner, _⟩ := all.registry.tree c x a live mine
  obtain rfl := Option.some.inj (advert.symm.trans advert')
  have before := unlinked c a v asked untouched.1 owner
  exact ⟨owner, untouched.2.1.trans before.1, untouched.2.2.trans before.2⟩

theorem effect (inv : Rings φ σ) (all : Inv ⟨φ, σ⟩) (eff : Effect σ₀ e ⟨φ, σ⟩ ⟨φ', τ⟩) :
    Rings φ' τ := by
  have waits : WaitQueues σ := all.waits
  cases eff with
  | connect | fill | begin | call | write | release | resize | armHeader | next | armUpload | block
  | requeue | armReturn | dropClient | rest | spare | orphan =>
      exact inv.congr rfl rfl rfl (fun _ => rfl) rfl
  | close _ quiet => rcases quiet with rfl | rfl <;> exact inv.congr rfl rfl rfl (fun _ => rfl) rfl
  | done quiet =>
      rcases quiet with rfl | ⟨c, rfl⟩ | ⟨c, rfl⟩ <;> exact inv.congr rfl rfl rfl (fun _ => rfl) rfl
  | finish | fail => exact inv.congr rfl rfl rfl (fun _ => change_map fun _ => rfl) rfl
  | setReturn =>
      refine inv.congr rfl rfl rfl (fun t => ?_) rfl
      rw [State.setReturn_tran]
      exact change_map fun _ => rfl
  | @submit _ _ c x svc tr len _ _ _ _ _ _ _ _ _ noDet =>
      have roomy : Rings φ (σ.allocBuf (List.replicate len 0)) :=
        inv.congr rfl rfl rfl (fun _ => rfl) rfl
      have fresh : σ.tran (σ.next + 1) = none := waits.fresh_tran (Nat.le_succ _)
      exact (roomy.addTran fresh tr noDet).congr rfl rfl rfl (fun _ => rfl) rfl
  | @enqueue _ _ t tr up found fits linkable noDet =>
      obtain ⟨svc, service⟩ := Option.isSome_iff_exists.mp linkable.1
      obtain ⟨_, _, uploading, _⟩ := all.dispatches.uploaded _ up
      have linked := inv.link (State.home_tran found) uploading.alone service (fits.imp id ?_) noDet
      · exact linked.congr rfl rfl rfl (fun _ => rfl) rfl
      · rintro ⟨svc', service', flag⟩
        obtain rfl := Option.some.inj (service.symm.trans service')
        exact flag
  | assignUp _ _ _ _ _ _ _ worker =>
      have current := all.registry.current worker (e.env.walk_perm _)
      exact ((inv.dismiss current).1.assign _ _ _ _).congr rfl rfl rfl (fun _ => rfl) rfl
  | assignWork _ _ _ _ _ _ _ _ _ worker =>
      exact (inv.dismiss (all.registry.current worker (e.env.walk_perm _))).1.assign _ _ _ _
  | @park _ _ c x a v parked live mine advert fits linkable asked untouched =>
      obtain ⟨svc, service⟩ := Option.isSome_iff_exists.mp linkable.1
      obtain ⟨_, alone⟩ := alone_of_asked unlinked all live mine advert asked untouched
      refine inv.link (State.home_adv advert) alone service ?_ (all.phases.parked c parked).2
      cases flag : svc.waitContainsTransactions with
      | true => exact .inl (fits ⟨svc, service, flag⟩)
      | false => exact .inr rfl
  | replyQueued _ _ _ _ _ _ deletable => exact inv.reply deletable.live _
  | replyWaiting _ _ _ _ deletable =>
      exact (inv.reply deletable.live _).congr rfl rfl rfl (fun _ => rfl) rfl
  | found _ _ noDet =>
      exact (inv.addService waits.fresh_service _ noDet).congr rfl rfl rfl (fun _ => rfl) rfl
  | @offer _ _ c x v _ _ noDet =>
      have added : Rings φ (σ.addAdvert v) := inv.addAdvert waits.fresh_advert v noDet
      exact added.congr rfl rfl rfl (fun _ => rfl) rfl
  | detach _ _ _ _ _ advert => exact inv.detach advert _
  | sweep _ _ _ _ deletable => exact inv.delTran deletable.live
  | purge _ _ _ _ _ _ _ deletable => exact inv.delTran deletable.live
  | dropService _ empty => exact inv.dropService empty
  | dropAdvert det => exact inv.dropAdvert det

/-- An advertisement on a wait queue was there before, or its client is just being put there. -/
theorem linked_of_effect (inv : Rings φ σ) (all : Inv ⟨φ, σ⟩) (eff : Effect σ₀ e ⟨φ, σ⟩ ⟨φ', τ⟩)
    {b : AdvertId} {w : Advert} (current : τ.advert b = some w) (linked : ¬τ.links.Alone (.adv b)) :
    σ.advert b = some w ∧ (¬σ.links.Alone (.adv b) ∨ φ.parked = some w.client) := by
  have deleted : ∀ {t tr}, σ.tran t = some tr → σ.advert b = some w →
      ¬(σ.links.delete (.tran t)).Alone (.adv b) →
      σ.advert b = some w ∧ (¬σ.links.Alone (.adv b) ∨ φ.parked = some w.client) := by
    intro t tr found current linked
    refine ⟨current, .inl fun before => linked ?_⟩
    exact ((inv.threaded.delete (State.home_tran found)).2 (.adv b) _ (by simp)
      (State.home_adv current)).mpr before
  have dismissed : ∀ {adverts}, (∀ a ∈ adverts, ∃ v, σ.advert a = some v) → σ.advert b = some w →
      ¬(σ.dismiss adverts).links.Alone (.adv b) →
      σ.advert b = some w ∧ (¬σ.links.Alone (.adv b) ∨ φ.parked = some w.client) := by
    intro adverts known current linked
    refine ⟨current, .inl fun before => linked ?_⟩
    exact ((inv.dismiss known).2 (.adv b) _ (State.home_adv current)).mpr (.inl before)
  cases eff with
  | submit | found =>
      exact ⟨current, .inl fun before => linked ((Links.init_alone_iff (by simp)).mpr before)⟩
  | offer =>
      rcases put_eq_some_iff.mp current with ⟨rfl, _⟩ | ⟨old, current⟩
      · exact absurd (WaitQueues.init_alone _ _) linked
      · exact ⟨current, .inl fun before =>
          linked ((Links.init_alone_iff fun same => old (Node.adv.inj same)).mpr before)⟩
  | enqueue up found fits linkable =>
      obtain ⟨svc, service⟩ := Option.isSome_iff_exists.mp linkable.1
      obtain ⟨_, _, uploading, _⟩ := all.dispatches.uploaded _ up
      have current : σ.advert b = some w := current
      refine ⟨current, .inl fun before => linked ?_⟩
      have head : σ.isHead (.head _) := ⟨svc, service⟩
      exact ((inv.threaded.append head (State.home_tran found) uploading.alone).2.2
        (.adv b) _ (by simp) (State.home_adv current)).mpr before
  | assignUp _ _ _ _ _ _ _ worker =>
      exact dismissed (all.registry.current worker (e.env.walk_perm _)) current linked
  | assignWork _ _ _ _ _ _ _ _ _ worker =>
      exact dismissed (all.registry.current worker (e.env.walk_perm _)) current linked
  | @park _ _ c x a v parked live mine advert _ linkable asked untouched =>
      obtain ⟨svc, service⟩ := Option.isSome_iff_exists.mp linkable.1
      obtain ⟨owner, alone⟩ := alone_of_asked unlinked all live mine advert asked untouched
      have current : σ.advert b = some w := current
      have head : σ.isHead (.head v.svc) := ⟨svc, service⟩
      by_cases self : b = a
      · subst self
        obtain rfl := Option.some.inj (advert.symm.trans current)
        exact ⟨current, .inr (owner ▸ parked)⟩
      · refine ⟨current, .inl fun before => linked ?_⟩
        exact ((inv.threaded.append head (State.home_adv advert) alone).2.2 (.adv b) _
          (fun same => self (Node.adv.inj same)) (State.home_adv current)).mpr before
  | replyQueued _ _ _ _ _ _ deletable => exact deleted deletable.live current linked
  | replyWaiting _ _ _ _ deletable => exact deleted deletable.live current linked
  | sweep _ _ _ _ deletable => exact deleted deletable.live current linked
  | purge _ _ _ _ _ _ _ deletable => exact deleted deletable.live current linked
  | @detach _ _ c x a v _ _ _ _ _ advert =>
      have current : σ.advert b = some w := current
      refine ⟨current, .inl fun before => linked ?_⟩
      by_cases same : b = a
      · subst same
        exact Links.delete_alone _ _
      · exact ((inv.threaded.delete (State.home_adv advert)).2 (.adv b) _
          (fun this => same (Node.adv.inj this)) (State.home_adv current)).mpr before
  | dropAdvert =>
      rcases put_eq_some_iff.mp current with ⟨_, impossible⟩ | ⟨_, current⟩
      · cases impossible
      · exact ⟨current, .inl linked⟩
  | _ => exact ⟨current, .inl linked⟩

theorem tran_linked_of_effect (inv : Rings φ σ) (all : Inv ⟨φ, σ⟩)
    (eff : Effect σ₀ e ⟨φ, σ⟩ ⟨φ', τ⟩) {t : TranId} {tr tr' : Transaction}
    (found : σ.tran t = some tr) (kept : τ.tran t = some tr') (linked : ¬σ.links.Alone (.tran t)) :
    ¬τ.links.Alone (.tran t) := by
  have at_ := State.home_tran found
  have created : ∀ {new}, .tran t ≠ new → ¬(σ.links.init new).Alone (.tran t) :=
    fun different after => linked ((Links.init_alone_iff different).mp after)
  have deleted : ∀ {n h}, σ.home n = some h → .tran t ≠ n → ¬(σ.links.delete n).Alone (.tran t) :=
    fun at' different after => linked (((inv.threaded.delete at').2 (.tran t) _ different at_).mp
      after)
  have dismissed : ∀ {adverts}, (∀ a ∈ adverts, ∃ v, σ.advert a = some v) →
      ¬(σ.dismiss adverts).links.Alone (.tran t) := by
    intro adverts current after
    exact linked ((((inv.dismiss current).2 (.tran t) _ at_).mp after).resolve_right (by simp))
  have answered : ∀ {t' tr''}, σ.tran t' = some tr'' → put σ.tran t' none t = some tr' →
      ¬(σ.links.delete (.tran t')).Alone (.tran t) := by
    intro t' tr'' found' kept
    exact deleted (State.home_tran found') fun same => (put_none_eq_some_iff.mp kept).1
      (Node.tran.inj same)
  cases eff with
  | submit =>
      refine created fun same => ?_
      rw [Node.tran.inj same] at found
      have fresh : σ.tran (σ.next + 1) = none := all.waits.fresh_tran (Nat.le_succ _)
      cases fresh.symm.trans found
  | found | offer => exact created (by simp)
  | @enqueue _ _ t' tr'' up found' _ linkable =>
      obtain ⟨svc, service⟩ := Option.isSome_iff_exists.mp linkable.1
      obtain ⟨_, _, uploading, _⟩ := all.dispatches.uploaded _ up
      have different : Node.tran t ≠ .tran t' := fun same => linked (same ▸ uploading.alone)
      have head : σ.isHead (.head _) := ⟨svc, service⟩
      exact fun after => linked
        (((inv.threaded.append head (State.home_tran found') uploading.alone).2.2 (.tran t) _
          different at_).mp after)
  | assignUp _ _ _ _ _ _ _ worker =>
      exact dismissed (all.registry.current worker (e.env.walk_perm _))
  | assignWork _ _ _ _ _ _ _ _ _ worker =>
      exact dismissed (all.registry.current worker (e.env.walk_perm _))
  | park _ live mine advert _ linkable asked untouched =>
      obtain ⟨svc, service⟩ := Option.isSome_iff_exists.mp linkable.1
      obtain ⟨_, alone⟩ := alone_of_asked unlinked all live mine advert asked untouched
      have head : σ.isHead (.head _) := ⟨svc, service⟩
      exact fun after => linked (((inv.threaded.append head (State.home_adv advert) alone).2.2
        (.tran t) _ (by simp) at_).mp after)
  | replyQueued _ _ _ _ _ _ deletable => exact answered deletable.live kept
  | replyWaiting _ _ _ _ deletable => exact answered deletable.live kept
  | sweep _ _ _ _ deletable => exact answered deletable.live kept
  | purge _ _ _ _ _ _ _ deletable => exact answered deletable.live kept
  | detach _ _ _ _ _ advert => exact deleted (State.home_adv advert) (by simp)
  | _ => exact linked

end

/-! ## Pointers that are followed -/

theorem nodeLive_of_home {n h : Node} (at_ : σ.home n = some h) : σ.nodeLive n = true := by
  cases n with
  | head s => cases at_
  | adv a =>
      obtain ⟨v, advert, _⟩ := Option.map_eq_some_iff.mp at_
      exact Option.isSome_of_eq_some advert
  | tran t =>
      obtain ⟨tr, found, _⟩ := Option.map_eq_some_iff.mp at_
      exact Option.isSome_of_eq_some found

theorem nodeLive_of_mem (inv : Rings φ σ) {h n : Node} {entries : List Node} (head : σ.isHead h)
    (ring : σ.links.IsRing h entries) (member : n ∈ h :: entries) : σ.nodeLive n = true := by
  rcases List.mem_cons.mp member with rfl | inside
  · cases n with
    | head s =>
        obtain ⟨svc, service⟩ := head
        exact Option.isSome_of_eq_some service
    | adv | tran => exact head.elim
  · exact nodeLive_of_home (inv.threaded.home_of_mem head ring inside)

theorem unlinkable (inv : Rings φ σ) {n h : Node} (at_ : σ.home n = some h) : σ.Unlinkable n := by
  have live := nodeLive_of_home at_
  rcases inv.threaded.node n h at_ with alone | ⟨head, entries, ring, member⟩
  · exact ⟨live, by rw [alone.1]; exact live, by rw [alone.2]; exact live⟩
  · have neighbours := ring.neighbours_mem (List.mem_cons_of_mem h member)
    exact ⟨live, inv.nodeLive_of_mem head ring neighbours.1,
      inv.nodeLive_of_mem head ring neighbours.2⟩

theorem linkable (inv : Rings φ σ) {s : ServiceId} {svc : Service} {n : Node}
    (service : σ.service s = some svc) (live : σ.nodeLive n = true) : σ.Linkable s n := by
  have head : σ.isHead (.head s) := ⟨svc, service⟩
  have headLive : σ.nodeLive (.head s) = true := Option.isSome_of_eq_some service
  obtain ⟨entries, ring, _⟩ := inv.threaded.ring (.head s) head
  have last := (ring.neighbours_mem (n := .head s) List.mem_cons_self).1
  have round := ring.p2_p1 (n := .head s) List.mem_cons_self
  exact ⟨headLive, live, inv.nodeLive_of_mem head ring last, by rw [round]; exact headLive⟩

theorem dismissable (inv : Rings φ σ) {adverts : List AdvertId}
    (current : ∀ a ∈ adverts, ∃ v, σ.advert a = some v) : σ.Dismissable adverts := by
  induction adverts generalizing σ with
  | nil => trivial
  | cons a adverts ih =>
      obtain ⟨v, advert⟩ := current a List.mem_cons_self
      refine ⟨inv.unlinkable (State.home_adv advert), ih (inv.unlink (State.home_adv advert)) ?_⟩
      exact fun b member => current b (List.mem_cons_of_mem a member)

/-! ## First entries -/

/-- The first entry of a wait queue is at home there. -/
theorem first_entry (inv : Rings φ σ) {s : ServiceId} {svc : Service}
    (service : σ.service s = some svc) (nonempty : ¬σ.EmptyQueue s) :
    σ.home (σ.links.p2 (.head s)) = some (.head s) ∧ ¬σ.links.Alone (σ.links.p2 (.head s)) := by
  have head : σ.isHead (.head s) := ⟨svc, service⟩
  obtain ⟨entries, ring, members⟩ := inv.threaded.ring (.head s) head
  cases entries with
  | nil => exact absurd (ring.p1_head_eq_iff.mpr rfl) nonempty
  | cons n rest =>
      have first : σ.links.p2 (.head s) = n := ring.linked_first.1
      rw [first]
      exact ⟨members n List.mem_cons_self, ring.not_alone List.mem_cons_self⟩

theorem first_tran (inv : Rings φ σ) {s : ServiceId} {svc : Service}
    (service : σ.service s = some svc) (transactions : svc.waitContainsTransactions = true)
    (nonempty : ¬σ.EmptyQueue s) : ∃ t, σ.links.p2 (.head s) = .tran t := by
  obtain ⟨at_, linked⟩ := inv.first_entry service nonempty
  have kind := inv.kind _ s svc at_ linked service
  rw [transactions] at kind
  cases first : σ.links.p2 (.head s) with
  | head s' => simp [first, Node.isTran] at kind
  | adv a => simp [first, Node.isTran] at kind
  | tran t => exact ⟨t, rfl⟩

theorem first_advert (inv : Rings φ σ) {s : ServiceId} {svc : Service}
    (service : σ.service s = some svc) (workers : svc.waitContainsTransactions = false)
    (nonempty : ¬σ.EmptyQueue s) : ∃ a v, σ.links.p2 (.head s) = .adv a ∧ σ.advert a = some v ∧
      v.svc = s ∧ ¬σ.links.Alone (.adv a) := by
  obtain ⟨at_, linked⟩ := inv.first_entry service nonempty
  have kind := inv.kind _ s svc at_ linked service
  rw [workers] at kind
  cases first : σ.links.p2 (.head s) with
  | head s' =>
      rw [first] at at_
      cases at_
  | adv a =>
      rw [first] at at_ linked
      obtain ⟨v, advert, same⟩ := Option.map_eq_some_iff.mp at_
      exact ⟨a, v, rfl, advert, Node.head.inj same, linked⟩
  | tran t => simp [first, Node.isTran] at kind

end Rings

end Switchboard
end Xatmi
