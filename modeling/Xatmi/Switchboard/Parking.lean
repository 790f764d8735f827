import Xatmi.Switchboard.Rings

/-!
# Waiting workers

A worker whose advertisements are on the wait queues is not being read from. That is so as long as
no transaction is dispatched twice: a reply to a transaction that two workers execute reaches its
owner even if the owner is one of the two, and is waiting for work by then.
-/

namespace Xatmi
namespace Switchboard

open Intrusive

/-! ## Dispatching once -/

/-- The transaction that `svrservice`, called for client `c` now, would hand out. -/
def picked (env : Env) (σ : State) (c : ClientId) : Option TranId :=
  (σ.client c).bind fun x =>
    match (env.walk x.adverts).foldlM findEarliest none σ with
    | .ok (some a, _) => (firstTran a σ).toOption.map Prod.fst
    | _ => none

theorem picked_of_picks {env : Env} {σ : State} {c : ClientId} {a : AdvertId} {t : TranId}
    (picks : Picks env σ c a t) : picked env σ c = some t := by
  obtain ⟨x, live, chosen, first⟩ := picks
  simp [picked, live, chosen, first, Except.toOption]

/-- No worker that asks for work is handed a transaction that has been handed out before. -/
def PicksNew (σ : State) (e : Event) : Prop :=
  ∀ c ∈ σ.clients, Commands σ e c TPTWORK → ∀ t ∈ picked e.env σ c, t ∉ σ.handedOut

instance (σ : State) (e : Event) : Decidable (PicksNew σ e) :=
  inferInstanceAs (Decidable (∀ c ∈ σ.clients, Commands σ e c TPTWORK → ∀ t ∈ picked e.env σ c,
    t ∉ σ.handedOut))

theorem PicksNew.undispatched {σ : State} {e : Event} {c : ClientId} {a : AdvertId} {t : TranId}
    (new : PicksNew σ e) (asked : Commands σ e c TPTWORK) (picks : Picks e.env σ c a t) :
    ¬σ.Dispatched t := by
  obtain ⟨filled, received, work⟩ := asked
  obtain ⟨_, _, _, _, _, _, connected, _⟩ := received_elim received
  intro dispatched
  exact new c connected ⟨filled, received, work⟩ t (picked_of_picks picks)
    (State.mem_handedOut_iff.mpr dispatched)

/-! ## Waiting workers -/

/-- Client `c` is on a wait queue, or is being put on one. -/
def Waiting (φ : Phase) (σ : State) (c : ClientId) : Prop :=
  (∃ a v, σ.advert a = some v ∧ v.client = c ∧ ¬σ.links.Alone (.adv a)) ∨ φ.parked = some c

/-- Nothing is read from client `c`, and if it waits for a transaction it does so as its worker. -/
structure Resting (φ : Phase) (σ : State) (c : ClientId) (x : Client) : Prop where
  idle : x.Idle
  stopped : φ.run ≠ some c
  noAny : x.wait4 ≠ some .any
  serves : ∀ t, x.wait4 = some (.tran t) → ∃ a, .dispatched a c t ∈ σ.log

/-- What holds of waiting workers as long as no transaction is dispatched twice. -/
structure Parking (φ : Phase) (σ : State) : Prop where
  rings : Rings φ σ
  once : σ.handedOut.Nodup
  resting : ∀ c x, Waiting φ σ c → σ.client c = some x → Resting φ σ c x
  /-- The worker of a finished transaction has let go of it. -/
  finished : ∀ t c x a, φ.fin = some t → σ.client c = some x → x.wait4 = some (.tran t) →
    .dispatched a c t ∉ σ.log

theorem eq_of_nodup_filterMap {α β : Type} {f : α → Option β} {xs : List α} {x y : α} {image : β}
    (nodup : (xs.filterMap f).Nodup) (first : x ∈ xs) (second : y ∈ xs) (here : f x = some image)
    (there : f y = some image) : x = y := by
  induction xs with
  | nil => cases first
  | cons z xs ih =>
      have later : ∀ {w}, w ∈ xs → f w = some image → image ∈ xs.filterMap f :=
        fun member same => List.mem_filterMap.mpr ⟨_, member, same⟩
      rcases List.mem_cons.mp first with rfl | first'
      · rw [List.filterMap_cons_some here, List.nodup_cons] at nodup
        rcases List.mem_cons.mp second with same | second'
        · exact same.symm
        · exact absurd (later second' there) nodup.1
      · rcases List.mem_cons.mp second with rfl | second'
        · rw [List.filterMap_cons_some there, List.nodup_cons] at nodup
          exact absurd (later first' here) nodup.1
        · exact ih (nodup.sublist ((List.sublist_cons_self z xs).filterMap f)) first' second'

/-- A transaction that is dispatched at most once has at most one worker. -/
theorem worker_unique {σ : State} (once : σ.handedOut.Nodup) {a a' : AdvertId} {c c' : ClientId}
    {t : TranId} (first : .dispatched a c t ∈ σ.log) (second : .dispatched a' c' t ∈ σ.log) :
    a = a' ∧ c = c' := by
  have same := eq_of_nodup_filterMap once first second rfl rfl
  simpa only [Obs.dispatched.injEq, and_true] using same

/-- Nobody else gets on a wait queue than the client that is being put there. -/
theorem Rings.waiting_of_effect {φ φ' : Phase} {σ τ σ₀ : State} {e : Event}
    (unlinked : ∀ c a v, Commands σ₀ e c TPTWORK → σ₀.advert a = some v → v.client = c →
      σ₀.links.Alone (.adv a))
    (rings : Rings φ σ) (all : Inv ⟨φ, σ⟩) (eff : Effect σ₀ e ⟨φ, σ⟩ ⟨φ', τ⟩) {c : ClientId}
    (parked : φ'.parked = some c → φ.parked = some c) (waits : Waiting φ' τ c) : Waiting φ σ c := by
  rcases waits with ⟨a, v, advert, rfl, linked⟩ | resting
  · obtain ⟨advert', linked' | parking⟩ := rings.linked_of_effect unlinked all eff advert linked
    · exact .inl ⟨a, v, advert', rfl, linked'⟩
    · exact .inr parking
  · exact .inr (parked resting)

namespace Parking

variable {φ φ' : Phase} {σ τ : State} {σ₀ : State} {e : Event}

theorem start : Parking {} .start := by
  refine ⟨.start, ?_, ?_, ?_⟩
  · simp [State.handedOut, State.start]
  · simp [State.start]
  · simp

/-- A client that is being read from, or whose handler is running, is on no wait queue. -/
theorem not_waiting (inv : Parking φ σ) {c : ClientId} {x : Client} (live : σ.client c = some x)
    (busy : x.handler ≠ none ∨ φ.run = some c) : ¬Waiting φ σ c := by
  intro waiting
  have rests := inv.resting c x waiting live
  rcases busy with reading | running
  · exact reading rests.idle.1
  · exact rests.stopped running

theorem alone_of_not_waiting {c : ClientId} (away : ¬Waiting φ σ c) {a : AdvertId} {v : Advert}
    (advert : σ.advert a = some v) (owner : v.client = c) : σ.links.Alone (.adv a) := by
  by_contra linked
  exact away (.inl ⟨a, v, advert, owner, linked⟩)

/-- A client that asks for work is on no wait queue. -/
theorem unlinked (before : Parking {} σ₀) (c : ClientId) (a : AdvertId) (v : Advert)
    (asks : Commands σ₀ e c TPTWORK) (advert : σ₀.advert a = some v) (owner : v.client = c) :
    σ₀.links.Alone (.adv a) := by
  obtain ⟨filled, asked, _⟩ := asks
  obtain ⟨_, x, _, _, _, _, _, live, reading, _⟩ := received_elim asked
  exact alone_of_not_waiting (before.not_waiting live (.inl (by simp [reading]))) advert owner

/-- What becomes of clients while nothing is dispatched: one on a wait queue stays as it is, but may
be rid of its transaction, and nobody begins to wait for a finished transaction. -/
def Follows (φ' : Phase) (σ τ : State) : Prop :=
  ∀ c y, τ.client c = some y →
    (Waiting φ' τ c → ∃ x, σ.client c = some x ∧ y.intake = x.intake ∧
      (y.wait4 = x.wait4 ∨ y.wait4 = none)) ∧
    ∀ t, φ'.fin = some t → y.wait4 = some (.tran t) →
      ∃ x, σ.client c = some x ∧ x.wait4 = some (.tran t)

theorem follows_of_eq (client : τ.client = σ.client) : Follows φ' σ τ := by
  intro c y live
  rw [client] at live
  exact ⟨fun _ => ⟨y, live, rfl, .inl rfl⟩, fun t _ serving => ⟨y, live, serving⟩⟩

theorem follows_of_change {c : ClientId} {update : Client → Client}
    (client : τ.client = change σ.client c update)
    (rests : Waiting φ' τ c → ∀ x, (update x).intake = x.intake ∧
      ((update x).wait4 = x.wait4 ∨ (update x).wait4 = none))
    (wait : ∀ x t, φ'.fin = some t → (update x).wait4 = some (.tran t) → x.wait4 = some (.tran t)) :
    Follows φ' σ τ := by
  intro k y live
  rw [client] at live
  obtain ⟨x, live', rfl⟩ := change_eq_some_iff.mp live
  by_cases same : k = c
  · subst same
    rw [if_pos rfl]
    exact ⟨fun waits => ⟨x, live', rests waits x⟩, fun t fin serving =>
      ⟨x, live', wait x t fin serving⟩⟩
  · rw [if_neg same]
    exact ⟨fun _ => ⟨x, live', rfl, .inl rfl⟩, fun t _ serving => ⟨x, live', serving⟩⟩

/-- Effects that put nobody on a wait queue and dispatch nothing. -/
theorem mono (inv : Parking φ σ) (rings : Rings φ' τ) (handedOut : τ.handedOut = σ.handedOut)
    (log : ∀ a c t, .dispatched a c t ∈ τ.log ↔ .dispatched a c t ∈ σ.log)
    (waiting : ∀ c, Waiting φ' τ c → Waiting φ σ c)
    (run : ∀ c, Waiting φ' τ c → φ'.run = some c → φ.run = some c)
    (fin : ∀ t, φ'.fin = some t → φ.fin = some t) (client : Follows φ' σ τ) : Parking φ' τ := by
  refine ⟨rings, handedOut ▸ inv.once, ?_, ?_⟩
  · intro c y waits live
    obtain ⟨x, live', intake, wait⟩ := (client c y live).1 waits
    have rests := inv.resting c x (waiting c waits) live'
    simp only [Client.intake, Prod.mk.injEq] at intake
    constructor
    · rw [Client.Idle, intake.1, intake.2.1, intake.2.2]
      exact rests.idle
    · exact fun running => rests.stopped (run c waits running)
    · rcases wait with same | none_
      · exact same ▸ rests.noAny
      · simp [none_]
    · intro t serving
      rcases wait with same | none_
      · obtain ⟨a, seen⟩ := rests.serves t (same ▸ serving)
        exact ⟨a, (log a c t).mpr seen⟩
      · simp [none_] at serving
  · intro t c y a finished live serving seen
    obtain ⟨x, live', serving'⟩ := (client c y live).2 t finished serving
    exact inv.finished t c x a (fin t finished) live' serving' ((log a c t).mp seen)

theorem waiting_of_alone (advert : ∀ a v, τ.advert a = some v → ¬τ.links.Alone (.adv a) →
      σ.advert a = some v ∧ ¬σ.links.Alone (.adv a))
    (parked : ∀ c, φ'.parked = some c → φ.parked = some c) (c : ClientId)
    (waits : Waiting φ' τ c) : Waiting φ σ c := by
  rcases waits with ⟨a, v, current, owner, linked⟩ | resting
  · obtain ⟨current', linked'⟩ := advert a v current linked
    exact .inl ⟨a, v, current', owner, linked'⟩
  · exact .inr (parked c resting)

/-- Effects on neither the links nor the dispatches. -/
theorem keep (inv : Parking φ σ) (rings : Rings φ' τ) (handedOut : τ.handedOut = σ.handedOut)
    (log : ∀ a c t, .dispatched a c t ∈ τ.log ↔ .dispatched a c t ∈ σ.log)
    (links : τ.links = σ.links) (advert : τ.advert = σ.advert)
    (parked : ∀ c, φ'.parked = some c → φ.parked = some c)
    (run : ∀ c, Waiting φ' τ c → φ'.run = some c → φ.run = some c)
    (fin : ∀ t, φ'.fin = some t → φ.fin = some t) (client : Follows φ' σ τ) : Parking φ' τ := by
  refine inv.mono rings handedOut log (waiting_of_alone ?_ parked) run fin client
  intro a v current linked
  exact ⟨advert ▸ current, links ▸ linked⟩

/-- Effects on a client that is on no wait queue. -/
theorem active (inv : Parking φ σ) {c : ClientId} {update : Client → Client} (rings : Rings φ' τ)
    (handedOut : τ.handedOut = σ.handedOut)
    (log : ∀ a c t, .dispatched a c t ∈ τ.log ↔ .dispatched a c t ∈ σ.log)
    (links : τ.links = σ.links) (advert : τ.advert = σ.advert) (away : ¬Waiting φ σ c)
    (parked : ∀ k, φ'.parked = some k → φ.parked = some k)
    (run : ∀ k, k ≠ c → φ'.run = some k → φ.run = some k)
    (fin : ∀ t, φ'.fin = some t → φ.fin = some t) (client : τ.client = change σ.client c update)
    (wait : ∀ x t, φ'.fin = some t → (update x).wait4 = some (.tran t) → x.wait4 = some (.tran t)) :
    Parking φ' τ := by
  have waiting : ∀ k, Waiting φ' τ k → Waiting φ σ k :=
    waiting_of_alone (fun a v current linked => ⟨advert ▸ current, links ▸ linked⟩) parked
  refine inv.mono rings handedOut log waiting (fun k waits => ?_) fin
    (follows_of_change client (fun waits => absurd (waiting c waits) away) wait)
  exact run k fun same => away (same ▸ waiting k waits)

theorem delTran (inv : Parking φ σ) {t : TranId} {tr : Transaction} (found : σ.tran t = some tr) :
    Parking φ (σ.delTran t tr) := by
  refine inv.mono (inv.rings.delTran found) rfl (fun _ _ _ => Iff.rfl)
    (waiting_of_alone ?_ fun _ => id) (fun _ _ => id) (fun _ => id) ?_
  · intro a v current linked
    refine ⟨current, fun before => linked ?_⟩
    exact ((inv.rings.threaded.delete (State.home_tran found)).2 (.adv a) _ (by simp)
      (State.home_adv current)).mpr before
  · intro c y live
    obtain ⟨x, live', rfl⟩ := Option.map_eq_some_iff.mp live
    have wait : (σ.bereave t tr c x).wait4 = x.wait4 ∨ (σ.bereave t tr c x).wait4 = none := by
      unfold State.bereave
      dsimp only
      split
      · exact .inr rfl
      · exact .inl rfl
    refine ⟨fun _ => ⟨x, live', rfl, wait⟩, fun t' _ serving => ⟨x, live', ?_⟩⟩
    rcases wait with same | none_
    · exact same ▸ serving
    · simp [none_] at serving

/-- A reply to a client that is on no wait queue. -/
theorem reply (inv : Parking φ σ) {t : TranId} {tr : Transaction} (found : σ.tran t = some tr)
    (contents : Bytes) (away : ¬Waiting φ σ tr.client) : Parking φ (σ.reply t tr contents) := by
  have armed : Parking φ (((σ.write tr.client (replyFrame tr contents)).nextCommand
      tr.client).mapClient tr.client fun x => { x with wait4 := none }) := by
    refine inv.keep (inv.rings.congr rfl rfl rfl (fun _ => rfl) rfl) rfl
      (fun _ _ _ => Iff.rfl) rfl rfl (fun _ => id) (fun _ _ => id) (fun _ => id)
      (follows_of_change (change_change _ _ _ _) ?_ ?_)
    · exact fun waits => absurd waits away
    · simp
  exact armed.delTran found

/-- Worker and transaction are put together. -/
theorem assign (inv : Parking φ σ) {a : AdvertId} {v : Advert} {t : TranId} (frame : Bytes)
    (new : ¬σ.Dispatched t) (finished : ∀ t, φ.fin = some t → σ.Dispatched t)
    (away : ¬Waiting φ σ v.client) : Parking φ (σ.assign a v t frame) := by
  have handedOut : (σ.assign a v t frame).handedOut = t :: σ.handedOut := rfl
  have log : ∀ {a' c' t'}, .dispatched a' c' t' ∈ (σ.assign a v t frame).log ↔
      (a' = a ∧ c' = v.client ∧ t' = t) ∨ .dispatched a' c' t' ∈ σ.log := by
    intro a' c' t'
    have logged : (σ.assign a v t frame).log = .dispatched a v.client t :: σ.log := rfl
    rw [logged, List.mem_cons, Obs.dispatched.injEq]
  have other : ∀ t', φ.fin = some t' → t' ≠ t := by
    rintro t' finishing rfl
    exact new (finished t' finishing)
  have clients : ∀ c y, (σ.assign a v t frame).client c = some y →
      ∃ x, σ.client c = some x ∧ (c ≠ v.client → y = x) ∧
        (c = v.client → y.wait4 = some (.tran t)) := by
    intro c y live
    obtain ⟨x, live', rfl⟩ := change_eq_some_iff.mp live
    obtain ⟨z, live'', rfl⟩ := change_eq_some_iff.mp live'
    refine ⟨z, live'', fun different => ?_, fun same => ?_⟩
    · simp [different]
    · simp [same]
  refine ⟨inv.rings.assign a v t frame, ?_, ?_, ?_⟩
  · rw [handedOut]
    exact List.nodup_cons.mpr ⟨fun member => new (State.mem_handedOut_iff.mp member), inv.once⟩
  · intro c y waits live
    obtain ⟨x, live', same, _⟩ := clients c y live
    obtain rfl := same fun this => away (this ▸ waits)
    obtain ⟨idle, stopped, noAny, serves⟩ := inv.resting c y waits live'
    refine ⟨idle, stopped, noAny, fun t' serving => ?_⟩
    obtain ⟨b, seen⟩ := serves t' serving
    exact ⟨b, log.mpr (.inr seen)⟩
  · intro t' c y b finishing live serving seen
    obtain ⟨x, live', same, given⟩ := clients c y live
    by_cases here : c = v.client
    · rw [given here] at serving
      exact other t' finishing (Wait.tran.inj (Option.some.inj serving)).symm
    · obtain rfl := same here
      rcases log.mp seen with ⟨_, _, rfl⟩ | seen
      · exact other t' finishing rfl
      · exact inv.finished t' c y b finishing live' serving seen

/-- Advertisements of one client are taken off the wait queues. -/
theorem dismiss (inv : Parking φ σ) {adverts : List AdvertId}
    (current : ∀ a ∈ adverts, ∃ v, σ.advert a = some v) : Parking φ (σ.dismiss adverts) := by
  obtain ⟨rings, alone⟩ := inv.rings.dismiss current
  refine inv.mono rings rfl (fun _ _ _ => Iff.rfl) (waiting_of_alone ?_ fun _ => id) (fun _ _ => id)
    (fun _ => id) (follows_of_eq rfl)
  intro a v advert linked
  exact ⟨advert, fun before => linked ((alone (.adv a) _ (State.home_adv advert)).mpr
    (.inl before))⟩

/-- The worker that lets go of its transaction is the one it was dispatched to. -/
theorem finish (inv : Parking φ σ) {c : ClientId} {t : TranId} {a : AdvertId}
    {result : Transaction → Transaction} (svc : ∀ tr, (result tr).svc = tr.svc)
    (seen : .dispatched a c t ∈ σ.log) (fin : φ'.fin = some t) (run : φ'.run = φ.run)
    (parked : φ'.parked = φ.parked) (det : φ'.det = φ.det) : Parking φ' (σ.finish c t result) := by
  have rings : Rings φ' (σ.finish c t result) :=
    inv.rings.congr rfl rfl rfl (fun _ => change_map fun _ => svc _) det
  have before : Parking { φ' with fin := none } (σ.finish c t result) := by
    refine inv.keep (rings.congr rfl rfl rfl (fun _ => rfl) rfl) rfl (fun _ _ _ => Iff.rfl) rfl rfl
      (fun k resting => ?_) (fun k _ running => ?_) (by simp) ?_
    · exact parked ▸ resting
    · exact run ▸ running
    · exact follows_of_change rfl (fun _ _ => ⟨rfl, .inr rfl⟩) (by simp)
  refine ⟨rings, before.once, ?_, ?_⟩
  · intro k x waits live
    obtain ⟨idle, stopped, noAny, serves⟩ := before.resting k x waits live
    exact ⟨idle, stopped, noAny, serves⟩
  · intro t' k y b finishing live serving seen'
    obtain rfl := Option.some.inj (fin.symm.trans finishing)
    obtain ⟨x, live', rfl⟩ := change_eq_some_iff.mp live
    obtain ⟨_, rfl⟩ := worker_unique inv.once seen' seen
    simp at serving

theorem not_waiting_dismiss (inv : Parking φ σ) (all : Inv ⟨φ, σ⟩) {c : ClientId} {x : Client}
    {adverts : List AdvertId} (live : σ.client c = some x) (perm : adverts.Perm x.adverts)
    (noDet : φ.det = none) (unparked : φ.parked ≠ some c) : ¬Waiting φ (σ.dismiss adverts) c := by
  have current := all.registry.current live perm
  rintro (⟨a, v, advert, rfl, linked⟩ | resting)
  · have advert : σ.advert a = some v := advert
    obtain ⟨y, live', member⟩ := all.registry.offered a v advert (by simp [noDet])
    obtain rfl := Option.some.inj (live.symm.trans live')
    exact linked (((inv.rings.dismiss current).2 (.adv a) _ (State.home_adv advert)).mpr
      (.inr ⟨a, perm.mem_iff.mpr member, rfl⟩))
  · exact unparked resting

theorem effect (inv : Parking φ σ) (before : Parking {} σ₀) (all : Inv ⟨φ, σ⟩)
    (new : PicksNew σ₀ e) (eff : Effect σ₀ e ⟨φ, σ⟩ ⟨φ', τ⟩) : Parking φ' τ := by
  have registry : Registry φ σ := all.registry
  have rings : Rings φ' τ := inv.rings.effect before.unlinked all eff
  have earlier : (∀ c, φ'.parked = some c → φ.parked = some c) → ∀ c, Waiting φ' τ c →
      Waiting φ σ c :=
    fun parked c => inv.rings.waiting_of_effect before.unlinked all eff (parked c)
  have running : ∀ {c x}, φ.run = some c → σ.client c = some x → ¬Waiting φ σ c :=
    fun run live => inv.not_waiting live (.inr run)
  cases eff with
  | write | release | resize | spare | setReturn | orphan =>
      exact inv.keep rings rfl (fun _ _ _ => Iff.rfl) rfl rfl (fun _ => id) (fun _ _ => id)
        (fun _ => id) (follows_of_eq rfl)
  | call =>
      exact inv.keep rings rfl (fun _ _ _ => by simp [State.observe]) rfl rfl (fun _ => id)
        (fun _ _ => id) (fun _ => id) (follows_of_eq rfl)
  | requeue =>
      exact inv.keep rings rfl (fun _ _ _ => Iff.rfl) rfl rfl (fun _ => id)
        (fun _ _ => id) (by simp) (follows_of_change rfl (fun _ _ => ⟨rfl, .inl rfl⟩) (by simp))
  | connect =>
      refine inv.keep rings rfl (fun _ _ _ => Iff.rfl) rfl rfl (fun _ => id) (fun _ _ => id)
        (fun _ => id) ?_
      intro c y live
      obtain ⟨x, live', rfl⟩ := change_eq_some_iff.mp live
      rcases put_eq_some_iff.mp live' with ⟨rfl, _⟩ | ⟨old, live'⟩
      · refine ⟨fun waits => ?_, by simp⟩
        rcases waits with ⟨a, v, advert, owner, _⟩ | resting
        · obtain ⟨z, live'', _⟩ := registry.offered a v advert (by simp)
          rw [owner, all.fresh.client_next registry] at live''
          cases live''
        · cases resting
      · rw [if_neg old]
        exact ⟨fun _ => ⟨x, live', rfl, .inl rfl⟩, by simp⟩
  | fill live _ reading =>
      exact inv.active rings rfl (fun _ _ _ => Iff.rfl) rfl rfl
        (inv.not_waiting live (.inl (by simp [reading]))) (fun _ => id) (fun _ _ => id)
        (fun _ => id) rfl (fun _ _ _ => id)
  | begin _ live _ reading =>
      refine inv.active rings rfl
        (fun _ _ _ => by simp [State.begin, State.observe, State.mapClient]) rfl rfl
        (inv.not_waiting live (.inl (by simp [reading]))) (by simp [Phase.called]) ?_
        (by simp [Phase.called]) rfl (fun _ _ _ => id)
      intro k different begun
      exact absurd (Option.some.inj begun).symm different
  | armHeader run _ live | armUpload run _ live =>
      exact inv.active rings rfl (fun _ _ _ => Iff.rfl) rfl rfl (running run live)
        (fun _ => id) (by simp) (fun _ => id) rfl (fun _ _ _ => id)
  | armReturn run live =>
      exact inv.active rings rfl (fun _ _ _ => Iff.rfl) rfl rfl (running run live)
        (fun _ => id) (by simp) (fun _ => id) rfl (fun _ _ _ => id)
  | next run live =>
      exact inv.active rings rfl (fun _ _ _ => Iff.rfl) rfl rfl (running run live) (fun _ => id)
        (fun _ _ => id) (fun _ => id) rfl (fun _ _ _ => id)
  | block run live _ _ _ noFin =>
      exact inv.active rings rfl (fun _ _ _ => Iff.rfl) rfl rfl (running run live)
        (fun _ => id) (by simp) (fun _ => id) rfl (by simp [noFin])
  | submit | offer | detach =>
      exact inv.mono rings rfl (fun _ _ _ => Iff.rfl) (earlier fun _ => id) (fun _ _ => id)
        (fun _ => id) (follows_of_change rfl (fun _ _ => ⟨rfl, .inl rfl⟩) (fun _ _ _ => id))
  | found | enqueue | park | dropAdvert =>
      exact inv.mono rings rfl (fun _ _ _ => Iff.rfl) (earlier fun _ => id) (fun _ _ => id)
        (fun _ => id) (follows_of_eq rfl)
  | @assignUp _ _ a v x t tr svc contents frame up found _ _ _ _ _ worker _ dismissable _
        noDet run =>
      obtain ⟨_, _, uploading, _⟩ := all.dispatches.uploaded _ up
      have unparked : φ.parked ≠ some v.client := fun resting => run (all.phases.parked _ resting).1
      have away := inv.not_waiting_dismiss all worker (e.env.walk_perm _) noDet unparked
      have assigned : Parking φ ((σ.dismiss (e.env.walk x.adverts)).assign a v t frame) :=
        (inv.dismiss (registry.current worker (e.env.walk_perm _))).assign frame uploading.new
          all.dispatches.finished away
      exact assigned.keep rings rfl (fun _ _ _ => Iff.rfl) rfl rfl (fun _ => id) (fun _ _ => id)
        (fun _ => id) (follows_of_eq rfl)
  | @assignWork _ _ c x a v y t tr contents frame run asked picks _ _ _ _ _ _ worker _ _ _ _
        noDet fresh =>
      have unparked : φ.parked ≠ some v.client := by
        intro resting
        have stopped : φ.run = none := (all.phases.parked _ resting).1
        simp [stopped] at run
      have away := inv.not_waiting_dismiss all worker (e.env.walk_perm _) noDet unparked
      have undispatched : ¬σ.Dispatched t := by
        rintro ⟨b, k, seen⟩
        exact new.undispatched asked picks ⟨b, k, fresh b k t seen⟩
      exact (inv.dismiss (registry.current worker (e.env.walk_perm _))).assign frame undispatched
        all.dispatches.finished away
  | @rest _ _ c x run _ live idle =>
      have active := all.dispatches.active c x live (.inr run)
      refine ⟨rings, inv.once, ?_, inv.finished⟩
      intro k y waits live'
      by_cases same : k = c
      · subst same
        obtain rfl := Option.some.inj (live.symm.trans live')
        exact ⟨idle, by simp, active.1, active.2⟩
      · have before : Waiting φ σ k := by
          rcases waits with linked | resting
          · exact .inl linked
          · exact absurd (Option.some.inj resting).symm same
        obtain ⟨idle', _, noAny, serves⟩ := inv.resting k y before live'
        exact ⟨idle', by simp, noAny, serves⟩
  | @replyQueued _ _ c x y t tr contents run _ live queued _ _ deletable =>
      have owner := all.own.owner_eq live (List.mem_append_right _ queued) deletable.live
      exact inv.reply deletable.live contents (owner ▸ running run live)
  | @replyWaiting _ _ x t tr contents fin live _ waiting deletable =>
      have away : ¬Waiting φ σ tr.client := by
        intro waits
        have rests := inv.resting _ x waits live
        rcases waiting with serving | ⟨_, any⟩
        · obtain ⟨a, seen⟩ := rests.serves t serving
          exact inv.finished t _ x a fin live serving seen
        · exact rests.noAny any
      exact (inv.reply deletable.live contents away).keep rings rfl (fun _ _ _ => Iff.rfl) rfl rfl
        (fun _ => id) (fun _ _ => id) (by simp) (follows_of_eq rfl)
  | @finish _ _ c x t tr run _ live serves found =>
      obtain ⟨a, seen⟩ := (all.dispatches.active c x live (.inr run)).2 t serves
      exact inv.finish (fun _ => rfl) seen rfl rfl rfl rfl
  | @fail _ _ c x t tr a v _ _ live serves found executor advert mine =>
      obtain ⟨k, seen, same⟩ := all.dispatches.executor t tr a found executor
      obtain rfl : k = c := (same v advert).symm.trans mine
      exact inv.finish (fun _ => rfl) seen rfl rfl rfl rfl
  | close _ quiet =>
      rcases quiet with rfl | rfl <;>
      exact inv.keep rings rfl (fun _ _ _ => Iff.rfl) rfl rfl (by simp) (by simp) (by simp)
        (follows_of_eq rfl)
  | done quiet =>
      rcases quiet with rfl | ⟨c, rfl⟩ | ⟨c, rfl⟩ <;>
      exact inv.keep rings rfl (fun _ _ _ => Iff.rfl) rfl rfl (by simp) (by simp) (by simp)
        (follows_of_eq rfl)
  | sweep _ _ _ _ deletable => exact inv.delTran deletable.live
  | purge _ _ _ _ _ _ _ deletable => exact inv.delTran deletable.live
  | dropService =>
      exact inv.keep rings rfl (fun _ _ _ => Iff.rfl) rfl rfl (fun _ => id) (fun _ _ => id)
        (fun _ => id) (follows_of_eq rfl)
  | dropClient =>
      refine inv.keep rings rfl (fun _ _ _ => Iff.rfl) rfl rfl (fun _ => id) (fun _ _ => id)
        (fun _ => id) ?_
      intro k y live
      rcases put_eq_some_iff.mp live with ⟨_, impossible⟩ | ⟨_, live⟩
      · cases impossible
      · exact ⟨fun _ => ⟨y, live, rfl, .inl rfl⟩, fun _ _ serving => ⟨y, live, serving⟩⟩

end Parking

theorem parking_of_reachable {σ : State} (reach : Reachable PicksNew σ) : Parking {} σ := by
  refine Reachable.induction (motive := fun κ => Parking κ.phase κ.state) .start ?_ reach
  rintro σ₀ e ⟨φ, σ⟩ ⟨φ', τ⟩ _ new before _ all inv eff
  exact inv.effect before all new eff

/-! ## Waiting transactions -/

/-- A transaction that was never dispatched is on the queue of its service, or its data is being
read or has just been read. -/
def Pending (φ : Phase) (σ : State) : Prop :=
  ∀ t tr, σ.tran t = some tr → ¬σ.Dispatched t → ¬σ.links.Alone (.tran t) ∨ φ.up = some t ∨
    ∃ x, σ.client tr.client = some x ∧ x.handler = some .sendToWorker ∧ x.input = some tr.data

namespace Pending

variable {φ φ' : Phase} {σ τ : State} {σ₀ : State} {e : Event}

/-- Effects that create no transaction and interrupt no reading of data. -/
theorem mono (inv : Pending φ σ)
    (tran : ∀ t tr, τ.tran t = some tr → ¬σ.Dispatched t →
      ∃ old, σ.tran t = some old ∧ old.client = tr.client ∧ old.data = tr.data ∧
        (¬σ.links.Alone (.tran t) → ¬τ.links.Alone (.tran t)))
    (log : ∀ t, σ.Dispatched t → τ.Dispatched t) (up : ∀ t, φ.up = some t → φ'.up = some t)
    (client : ∀ c x, σ.client c = some x → x.handler = some .sendToWorker →
      ∃ y, τ.client c = some y ∧ y.handler = some .sendToWorker ∧ y.input = x.input) :
    Pending φ' τ := by
  intro t tr found new
  have new' : ¬σ.Dispatched t := fun before => new (log t before)
  obtain ⟨old, found', owner, data, links⟩ := tran t tr found new'
  rcases inv t old found' new' with linked | up' | ⟨x, live, reading, into⟩
  · exact .inl (links linked)
  · exact .inr (.inl (up t up'))
  · obtain ⟨y, live', reading', into'⟩ := client old.client x live reading
    exact .inr (.inr ⟨y, owner ▸ live', reading', by rw [into', into, data]⟩)

/-- The same for effects that leave transactions and links alone. -/
theorem keep (inv : Pending φ σ) (tran : τ.tran = σ.tran) (links : τ.links = σ.links)
    (log : ∀ t, σ.Dispatched t → τ.Dispatched t) (up : ∀ t, φ.up = some t → φ'.up = some t)
    (client : ∀ c x, σ.client c = some x → x.handler = some .sendToWorker →
      ∃ y, τ.client c = some y ∧ y.handler = some .sendToWorker ∧ y.input = x.input) :
    Pending φ' τ := by
  refine inv.mono (fun t tr found _ => ⟨tr, tran ▸ found, rfl, rfl, ?_⟩) log up client
  exact fun linked => links ▸ linked

theorem client_of_change {c : ClientId} {x : Client} {update : Client → Client}
    (live : σ.client c = some x) (idle : x.handler ≠ some .sendToWorker)
    (client : τ.client = change σ.client c update) (k : ClientId) (y : Client)
    (live' : σ.client k = some y) (reading : y.handler = some .sendToWorker) :
    ∃ z, τ.client k = some z ∧ z.handler = some .sendToWorker ∧ z.input = y.input := by
  have different : k ≠ c := by
    rintro rfl
    obtain rfl := Option.some.inj (live.symm.trans live')
    exact idle reading
  refine ⟨y, ?_, reading, rfl⟩
  rw [client]
  exact change_eq_some_iff.mpr ⟨y, live', (if_neg different).symm⟩

theorem delTran (inv : Pending φ σ) (rings : Rings φ σ) {t : TranId} {tr : Transaction}
    (found : σ.tran t = some tr) : Pending φ (σ.delTran t tr) := by
  refine inv.mono ?_ (fun _ => id) (fun _ => id) ?_
  · intro t' tr' current _
    rcases put_eq_some_iff.mp current with ⟨_, impossible⟩ | ⟨different, current⟩
    · cases impossible
    · refine ⟨tr', current, rfl, rfl, fun linked after => linked ?_⟩
      exact ((rings.threaded.delete (State.home_tran found)).2 (.tran t') _
        (fun same => different (Node.tran.inj same)) (State.home_tran current)).mp after
  · intro c x live reading
    exact ⟨σ.bereave t tr c x, by simp [State.delTran, live], reading, rfl⟩

theorem reply (inv : Pending φ σ) (rings : Rings φ σ) {t : TranId} {tr : Transaction} {x : Client}
    (found : σ.tran t = some tr) (live : σ.client tr.client = some x) (idle : x.Idle)
    (contents : Bytes) : Pending φ (σ.reply t tr contents) := by
  have armed : Pending φ (((σ.write tr.client (replyFrame tr contents)).nextCommand
      tr.client).mapClient tr.client fun x => { x with wait4 := none }) :=
    inv.keep rfl rfl (fun _ => id) (fun _ => id)
      (client_of_change live (by simp [idle.1]) (change_change _ _ _ _))
  exact armed.delTran (rings.congr rfl rfl rfl (fun _ => rfl) rfl) found

theorem dismiss (inv : Pending φ σ) (rings : Rings φ σ) {adverts : List AdvertId}
    (current : ∀ a ∈ adverts, ∃ v, σ.advert a = some v) : Pending φ (σ.dismiss adverts) := by
  refine inv.mono ?_ (fun _ => id) (fun _ => id) (fun c x live reading => ⟨x, live, reading, rfl⟩)
  intro t tr found _
  refine ⟨tr, found, rfl, rfl, fun linked after => linked ?_⟩
  exact (((rings.dismiss current).2 (.tran t) _ (State.home_tran found)).mp after).resolve_right
    (by simp)

/-- The transaction that is dispatched is not pending any more. -/
theorem assign (inv : Pending φ σ) {a : AdvertId} {v : Advert} {t : TranId} {x : Client}
    (frame : Bytes) (worker : σ.client v.client = some x) (idle : x.Idle)
    (up : ∀ t', φ.up = some t' → φ'.up = some t' ∨ t' = t) : Pending φ' (σ.assign a v t frame) := by
  have logged : (σ.assign a v t frame).log = .dispatched a v.client t :: σ.log := rfl
  intro t' tr found new
  have other : t' ≠ t := by
    rintro rfl
    exact new ⟨a, v.client, by simp [logged]⟩
  have new' : ¬σ.Dispatched t' := by
    rintro ⟨b, k, seen⟩
    exact new ⟨b, k, by simp [logged, seen]⟩
  obtain ⟨old, found', rfl⟩ := change_eq_some_iff.mp found
  rw [if_neg other]
  rcases inv t' old found' new' with linked | up' | ⟨y, live, reading, into⟩
  · exact .inl linked
  · exact .inr (.inl ((up t' up').resolve_right other))
  · obtain ⟨z, live', reading', into'⟩ := @client_of_change σ (σ.assign a v t frame) v.client x _
      worker (by simp [idle.1]) (change_change _ _ _ _) old.client y live reading
    exact .inr (.inr ⟨z, live', reading', into'.trans into⟩)

theorem effect (inv : Pending φ σ) (rings : Rings φ σ) (all : Inv ⟨φ, σ⟩)
    (eff : Effect σ₀ e ⟨φ, σ⟩ ⟨φ', τ⟩) : Pending φ' τ := by
  have same : ∀ c x, σ.client c = some x → x.handler = some .sendToWorker →
      ∃ y, σ.client c = some y ∧ y.handler = some .sendToWorker ∧ y.input = x.input :=
    fun _ x live reading => ⟨x, live, reading, rfl⟩
  have changed : ∀ {c update}, (∀ x : Client, (update x).handler = x.handler ∧
        (update x).input = x.input) → ∀ k x, σ.client k = some x → x.handler = some .sendToWorker →
      ∃ y, change σ.client c update k = some y ∧ y.handler = some .sendToWorker ∧
        y.input = x.input := by
    intro c update keeps k x live reading
    refine ⟨_, change_eq_some_iff.mpr ⟨x, live, rfl⟩, ?_⟩
    split
    · exact ⟨(keeps x).1.trans reading, (keeps x).2⟩
    · exact ⟨reading, rfl⟩
  have idle : ∀ {c : ClientId} {x : Client}, σ.client c = some x → x.Idle →
      x.handler ≠ some .sendToWorker := by
    rintro c x _ ⟨none_, _⟩
    simp [none_]
  cases eff with
  | write | release | resize | spare | orphan | dropService | dropAdvert =>
      exact inv.keep rfl rfl (fun _ => id) (fun _ => id) same
  | call =>
      refine inv.keep rfl rfl ?_ (fun _ => id) same
      rintro t ⟨a, c, seen⟩
      exact ⟨a, c, List.mem_cons_of_mem _ seen⟩
  | connect =>
      refine inv.keep rfl rfl (fun _ => id) (fun _ => id) ?_
      intro c x live reading
      have old : c ≠ σ.next := by
        rintro rfl
        rw [all.fresh.client_next all.registry] at live
        cases live
      refine ⟨x, change_eq_some_iff.mpr ⟨x, ?_, (if_neg old).symm⟩, reading, rfl⟩
      exact put_eq_some_iff.mpr (.inr ⟨old, live⟩)
  | fill => exact inv.keep rfl rfl (fun _ => id) (fun _ => id) (changed fun _ => ⟨rfl, rfl⟩)
  | @begin _ c x handler b _ filled _ live into reading =>
      intro t tr found new
      have new' : ¬σ.Dispatched t := fun ⟨a, k, seen⟩ => new ⟨a, k, List.mem_cons_of_mem _ seen⟩
      rcases inv t tr found new' with linked | up | ⟨y, live', reading', into'⟩
      · exact .inl linked
      · cases up
      · by_cases same : tr.client = c
        · subst same
          obtain rfl := Option.some.inj (live.symm.trans live')
          obtain rfl := Option.some.inj (reading.symm.trans reading')
          obtain ⟨t', tr', uploading, _, into''⟩ := all.dispatches.upload _ x live reading (by simp)
          have data : tr.data = tr'.data := Option.some.inj (into'.symm.trans into'')
          obtain rfl := all.buffers.apart t t' tr tr' found uploading.found data
          exact .inr (.inl uploading.last)
        · exact .inr (.inr ⟨y, change_eq_some_iff.mpr ⟨y, live', (if_neg same).symm⟩,
            reading', into'⟩)
  | armHeader _ _ live resting | next _ live resting =>
      exact inv.keep rfl rfl (fun _ => id) (fun _ => id) (client_of_change live
        (idle live resting) rfl)
  | armReturn _ live resting | block _ live resting =>
      exact inv.keep rfl rfl (fun _ => id) (fun _ => id) (client_of_change live
        (idle live resting) rfl)
  | @submit _ _ c x svc tr len _ noUp =>
      intro t tr' found new
      rcases put_eq_some_iff.mp found with ⟨rfl, _⟩ | ⟨old, found⟩
      · exact .inr (.inl rfl)
      · rcases inv t tr' found new with linked | up | ⟨y, live', reading', into'⟩
        · refine .inl fun after => linked ?_
          exact (Links.init_alone_iff fun this => old (Node.tran.inj this)).mp after
        · simp [noUp] at up
        · refine .inr (.inr ⟨_, change_eq_some_iff.mpr ⟨y, live', rfl⟩, ?_, ?_⟩)
          · split <;> exact reading'
          · split <;> exact into'
  | @armUpload _ _ c x t tr _ run up live resting found owner =>
      intro t' tr' found' new
      rcases inv t' tr' found' new with linked | up' | ⟨y, live', reading', into'⟩
      · exact .inl linked
      · obtain rfl := Option.some.inj (up.symm.trans up')
        obtain rfl := Option.some.inj (found.symm.trans found')
        exact .inr (.inr ⟨_, change_eq_some_iff.mpr ⟨x, owner ▸ live,
          rfl⟩, by simp [owner], by simp [owner]⟩)
      · obtain ⟨z, live'', reading'', into''⟩ := client_of_change live (idle live resting)
          (rfl : (σ.arm c .sendToWorker tr.data).client = _) _ y live' reading'
        exact .inr (.inr ⟨z, live'', reading'', into''.trans into'⟩)
  | @enqueue _ _ t tr up found _ linkable =>
      obtain ⟨svc, service⟩ := Option.isSome_iff_exists.mp linkable.1
      have head : σ.isHead (.head tr.svc) := ⟨svc, service⟩
      obtain ⟨_, _, uploading, _⟩ := all.dispatches.uploaded _ up
      obtain ⟨_, linked, others⟩ :=
        rings.threaded.append head (State.home_tran found) uploading.alone
      intro t' tr' found' new
      by_cases self : t' = t
      · subst self
        exact .inl linked
      · rcases inv t' tr' found' new with linked' | up' | reading
        · refine .inl fun after => linked' ?_
          exact (others (.tran t') _ (fun this => self (Node.tran.inj this))
            (State.home_tran found')).mp after
        · exact absurd (Option.some.inj (up'.symm.trans up)) self
        · exact .inr (.inr reading)
  | assignUp up found _ _ _ _ _ worker resting =>
      refine (inv.dismiss rings (all.registry.current worker (e.env.walk_perm _))).assign _ worker
        resting fun t' up' => .inr ?_
      exact Option.some.inj (up'.symm.trans up)
  | assignWork _ _ _ _ _ _ _ _ _ worker resting =>
      exact (inv.dismiss rings (all.registry.current worker (e.env.walk_perm _))).assign _ worker
        resting fun t' up' => .inl up'
  | rest => exact inv.keep rfl rfl (fun _ => id) (fun _ => id) same
  | @park _ _ c x a v parked live mine advert fits linkable asked untouched =>
      refine inv.mono ?_ (fun _ => id) (fun _ => id) same
      intro t tr found _
      refine ⟨tr, found, rfl, rfl, fun linked after => linked ?_⟩
      have away := all.waits.park_tran fits linkable t
      exact ⟨away.1.symm.trans after.1, away.2.symm.trans after.2⟩
  | @replyQueued _ _ c x y t tr contents run _ live queued owner resting deletable =>
      exact inv.reply rings deletable.live owner resting contents
  | replyWaiting _ live resting _ deletable =>
      exact (inv.reply rings deletable.live live resting _).keep rfl rfl (fun _ => id) (fun _ => id)
        fun _ x live reading => ⟨x, live, reading, rfl⟩
  | requeue => exact inv.keep rfl rfl (fun _ => id) (fun _ => id) (changed fun _ => ⟨rfl, rfl⟩)
  | @setReturn _ _ c x t tr contents data rval rcode run live serves found =>
      refine inv.mono ?_ (fun _ => id) (fun _ => id) same
      intro t' tr' found' new
      rw [State.setReturn_tran] at found'
      obtain ⟨old, found'', rfl⟩ := change_eq_some_iff.mp found'
      have other : t' ≠ t := by
        rintro rfl
        obtain ⟨a, seen⟩ := (all.dispatches.active c x live (.inr run)).2 t' serves
        exact new ⟨a, c, seen⟩
      rw [if_neg other]
      exact ⟨old, found'', rfl, rfl, id⟩
  | finish | fail =>
      refine inv.mono ?_ (fun _ => id) (fun _ => id) (changed fun _ => ⟨rfl, rfl⟩)
      intro t' tr' found' _
      obtain ⟨old, found'', rfl⟩ := change_eq_some_iff.mp found'
      refine ⟨old, found'', ?_, ?_, id⟩ <;> split <;> rfl
  | found =>
      refine inv.mono ?_ (fun _ => id) (fun _ => id) same
      intro t tr found _
      exact ⟨tr, found, rfl, rfl, fun linked after =>
        linked ((Links.init_alone_iff (by simp)).mp after)⟩
  | offer =>
      refine inv.mono ?_ (fun _ => id) (fun _ => id) (changed fun _ => ⟨rfl, rfl⟩)
      intro t tr found _
      exact ⟨tr, found, rfl, rfl, fun linked after =>
        linked ((Links.init_alone_iff (by simp)).mp after)⟩
  | close _ quiet =>
      rcases quiet with rfl | rfl <;> exact inv.keep rfl rfl (fun _ => id) (by simp) same
  | done quiet =>
      rcases quiet with rfl | ⟨c, rfl⟩ | ⟨c, rfl⟩ <;>
        exact inv.keep rfl rfl (fun _ => id) (by simp) same
  | detach _ _ _ _ _ advert =>
      refine inv.mono ?_ (fun _ => id) (fun _ => id) (changed fun _ => ⟨rfl, rfl⟩)
      intro t tr found _
      refine ⟨tr, found, rfl, rfl, fun linked after => linked ?_⟩
      exact ((rings.threaded.delete (State.home_adv advert)).2 (.tran t) _ (by simp)
        (State.home_tran found)).mp after
  | sweep _ _ _ _ deletable => exact inv.delTran rings deletable.live
  | purge _ _ _ _ _ _ _ deletable => exact inv.delTran rings deletable.live
  | @dropClient _ _ c x _ _ _ live _ noRequests noReplies =>
      intro t tr found new
      rcases inv t tr found new with linked | up | ⟨y, live', reading', into'⟩
      · exact .inl linked
      · exact .inr (.inl up)
      · have other : tr.client ≠ c := by
          rintro rfl
          obtain ⟨z, live'', member⟩ := all.own.owned t tr found
          obtain rfl := Option.some.inj (live.symm.trans live'')
          simp [Client.outstanding, noRequests, noReplies] at member
        exact .inr (.inr ⟨y, put_eq_some_iff.mpr (.inr ⟨other, live'⟩), reading', into'⟩)

end Pending

theorem pending_of_reachable {σ : State} (reach : Reachable PicksNew σ) : Pending {} σ := by
  have both : Parking {} σ ∧ Pending {} σ := by
    refine Reachable.induction
      (motive := fun κ => Parking κ.phase κ.state ∧ Pending κ.phase κ.state) ?_ ?_ reach
    · exact ⟨.start, by simp [Pending, State.start]⟩
    · rintro σ₀ e ⟨φ, σ⟩ ⟨φ', τ⟩ _ new before _ all ⟨parking, pending⟩ eff
      have parking' := parking.effect before.1 all new eff
      exact ⟨parking', pending.effect parking.rings all eff⟩
  exact both.2

end Switchboard
end Xatmi
