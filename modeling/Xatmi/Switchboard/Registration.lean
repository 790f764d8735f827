import Xatmi.Switchboard.Withdrawal
import Xatmi.Switchboard.Progress
import Xatmi.Switchboard.Scenario

/-!
# The registry of advertisements

What the trees of advertisements and services stand for: a finite map from clients and names to
function pointers. `svradvertise`, `svrunadvertise` and the deletion of a client are the operations
of the map, and no other event changes it.
-/

namespace Xatmi
namespace Switchboard

open Program Relation

/-! ## The abstract registry -/

/-- The function pointer each client has stored for each name. -/
abbrev Offers := ClientId → Bytes → Option (BitVec 64)

namespace Offers

/-- Enter a pointer, unless there is one. -/
def advertise (offers : Offers) (c : ClientId) (name : Bytes) (func : BitVec 64) : Offers :=
  fun k n => if k = c ∧ n = name then some ((offers c name).getD func) else offers k n

/-- Remove a pointer. -/
def withdraw (offers : Offers) (c : ClientId) (name : Bytes) : Offers :=
  fun k n => if k = c ∧ n = name then none else offers k n

/-- Remove everything a client has stored. -/
def leave (offers : Offers) (c : ClientId) : Offers :=
  fun k n => if k = c then none else offers k n

end Offers

/-- The map that the trees represent; names are equal when they are up to their first NUL. -/
def State.offers (σ : State) : Offers := fun c name =>
  (σ.client c).bind fun x =>
    (x.adverts.find? fun a => (σ.advertName a).any fun n => cname n = name).bind fun a =>
      (σ.advert a).map Advert.opaqueFunc

variable {σ₀ σ τ : State} {e : Event}

theorem advert_unique (registry : Registry {} σ) {a b : AdvertId} {v w : Advert}
    {svc svc' : Service} (advert : σ.advert a = some v) (advert' : σ.advert b = some w)
    (owner : v.client = w.client) (service : σ.service v.svc = some svc)
    (service' : σ.service w.svc = some svc') (name : cname svc.svcname = cname svc'.svcname) :
    a = b := by
  obtain ⟨x, live, member⟩ := registry.offered a v advert (by simp)
  obtain ⟨y, live', member'⟩ := registry.offered b w advert' (by simp)
  rw [← owner] at live'
  obtain rfl := Option.some.inj (live.symm.trans live')
  exact registry.tree_svc _ x a b v w live member member' advert advert'
    (registry.names _ _ _ _ service service' name)

theorem offers_eq_some_iff (registry : Registry {} σ) {c : ClientId} {name : Bytes}
    {func : BitVec 64} : σ.offers c name = some func ↔ ∃ a v svc, σ.advert a = some v ∧
      v.client = c ∧ σ.service v.svc = some svc ∧ cname svc.svcname = name ∧
      v.opaqueFunc = func := by
  have named : ∀ {a v svc}, σ.advert a = some v → σ.service v.svc = some svc →
      ((σ.advertName a).any fun n => cname n = name) = decide (cname svc.svcname = name) := by
    intro a v svc advert service
    simp [State.advertName, advert, service]
  simp only [State.offers, Option.bind_eq_some_iff, Option.map_eq_some_iff]
  constructor
  · rintro ⟨x, live, a, found, v, advert, pointer⟩
    have member := List.mem_of_find?_eq_some found
    obtain ⟨_, v', advert', owner, svc, service⟩ := registry.tree c x a live member
    obtain rfl := Option.some.inj (advert.symm.trans advert')
    have seen := List.find?_some found
    rw [named advert service, decide_eq_true_eq] at seen
    exact ⟨a, v, svc, advert, owner, service, seen, pointer⟩
  · rintro ⟨a, v, svc, advert, rfl, service, rfl, pointer⟩
    obtain ⟨x, live, member⟩ := registry.offered a v advert (by simp)
    refine ⟨x, live, a, ?_, v, advert, pointer⟩
    cases found : x.adverts.find? fun a => (σ.advertName a).any fun n =>
        cname n = cname svc.svcname with
    | none =>
        have missing := List.find?_eq_none.mp found a member
        simp [State.advertName, advert, service] at missing
    | some b =>
        have member' := List.mem_of_find?_eq_some found
        obtain ⟨_, w, advert', owner, svc', service'⟩ := registry.tree v.client x b live member'
        have seen := List.find?_some found
        simp only [State.advertName, advert', service', Option.bind_some, Option.map_some,
          Option.any_some, decide_eq_true_eq] at seen
        exact congrArg some (advert_unique registry advert' advert owner service' service seen)

theorem service_of_advert (inv : Inv ⟨{}, σ⟩) (trace : Trace σ e ⟨{}, σ⟩ ⟨{}, τ⟩) {a : AdvertId}
    {v : Advert} (advert : σ.advert a = some v) (advert' : τ.advert a = some v) :
    ∃ svc svc', σ.service v.svc = some svc ∧ τ.service v.svc = some svc' ∧
      svc.svcname = svc'.svcname := by
  have current : ∀ {μ}, Registry {} μ → μ.advert a = some v →
      ∃ svc, μ.service v.svc = some svc := by
    intro μ registry advert
    obtain ⟨x, live, member⟩ := registry.offered a v advert (by simp)
    obtain ⟨_, w, same, _, svc, service⟩ := registry.tree _ x a live member
    obtain rfl := Option.some.inj (advert.symm.trans same)
    exact ⟨svc, service⟩
  obtain ⟨svc, service⟩ := current inv.registry advert
  obtain ⟨svc', service'⟩ := current (inv.trace trace).registry advert'
  refine ⟨svc, svc', service, service', ?_⟩
  rcases service_of_trace trace service' with ⟨svc₀, service₀, name⟩ | young
  · obtain rfl := Option.some.inj (service.symm.trans service₀)
    exact name
  · have old : v.svc < σ.next := (inv.waits.old (.head v.svc) (Option.isSome_of_eq_some service)).1
    exact absurd old (Nat.not_lt.mpr young)

theorem offers_of_kept (inv : Inv ⟨{}, σ⟩) (trace : Trace σ e ⟨{}, σ⟩ ⟨{}, τ⟩)
    {keep : AdvertId → Advert → Prop}
    (adverts : ∀ a v, τ.advert a = some v ↔ σ.advert a = some v ∧ keep a v) {c : ClientId}
    {name : Bytes} {func : BitVec 64} :
    τ.offers c name = some func ↔ ∃ a v svc, σ.advert a = some v ∧ keep a v ∧ v.client = c ∧
      σ.service v.svc = some svc ∧ cname svc.svcname = name ∧ v.opaqueFunc = func := by
  rw [offers_eq_some_iff (inv.trace trace).registry]
  constructor
  · rintro ⟨a, v, svc', advert', owner, service', name, pointer⟩
    obtain ⟨advert, kept⟩ := (adverts a v).mp advert'
    obtain ⟨svc, _, service, same, renamed⟩ := service_of_advert inv trace advert advert'
    obtain rfl := Option.some.inj (service'.symm.trans same)
    exact ⟨a, v, svc, advert, kept, owner, service, renamed ▸ name, pointer⟩
  · rintro ⟨a, v, svc, advert, kept, owner, service, name, pointer⟩
    have advert' := (adverts a v).mpr ⟨advert, kept⟩
    obtain ⟨_, svc', same, service', renamed⟩ := service_of_advert inv trace advert advert'
    obtain rfl := Option.some.inj (service.symm.trans same)
    exact ⟨a, v, svc', advert', owner, service', renamed ▸ name, pointer⟩

theorem offers_of_advertised (inv : Inv ⟨{}, σ⟩) (trace : Trace σ e ⟨{}, σ⟩ ⟨{}, τ⟩) {a : AdvertId}
    {v : Advert} {svc : Service} {func : BitVec 64} (advert : τ.advert a = some v)
    (service : τ.service v.svc = some svc)
    (others : ∀ b w, b ≠ a → (τ.advert b = some w ↔ σ.advert b = some w))
    (stored : σ.advert a = some v ∨ σ.advert a = none ∧ v.opaqueFunc = func) :
    τ.offers = σ.offers.advertise v.client (cname svc.svcname) func ∧
      τ.offers v.client (cname svc.svcname) = some v.opaqueFunc := by
  have registry : Registry {} σ := inv.registry
  have registry' : Registry {} τ := (inv.trace trace).registry
  have here : τ.offers v.client (cname svc.svcname) = some v.opaqueFunc :=
    (offers_eq_some_iff registry').mpr ⟨a, v, svc, advert, rfl, service, rfl, rfl⟩
  refine ⟨?_, here⟩
  funext k n
  unfold Offers.advertise
  split
  · rename_i same
    obtain ⟨rfl, rfl⟩ := same
    rw [here]
    congr 1
    rcases stored with old | ⟨new, rfl⟩
    · obtain ⟨svc₀, svc', service₀, same, renamed⟩ := service_of_advert inv trace old advert
      obtain rfl := Option.some.inj (service.symm.trans same)
      have before : σ.offers v.client (cname svc.svcname) = some v.opaqueFunc :=
        (offers_eq_some_iff registry).mpr ⟨a, v, svc₀, old, rfl, service₀, by rw [renamed], rfl⟩
      rw [before, Option.getD_some]
    · have before : σ.offers v.client (cname svc.svcname) = none := by
        refine Option.eq_none_iff_forall_ne_some.mpr fun f stored => ?_
        obtain ⟨b, w, svc', old, owner, service', name, _⟩ :=
          (offers_eq_some_iff registry).mp stored
        have different : b ≠ a := by
          rintro rfl
          simp [new] at old
        have current := (others b w different).mpr old
        obtain ⟨_, svc'', same, service'', renamed⟩ := service_of_advert inv trace old current
        obtain rfl := Option.some.inj (service'.symm.trans same)
        exact different (advert_unique registry' current advert owner service'' service
          (renamed ▸ name))
      rw [before, Option.getD_none]
  · rename_i different
    refine Option.ext fun f => ?_
    rw [offers_eq_some_iff registry', offers_eq_some_iff registry]
    constructor
    · rintro ⟨b, w, svc', advert', rfl, service', rfl, pointer⟩
      have apart : b ≠ a := by
        rintro rfl
        obtain rfl := Option.some.inj (advert.symm.trans advert')
        obtain rfl := Option.some.inj (service.symm.trans service')
        exact different ⟨rfl, rfl⟩
      have old := (others b w apart).mp advert'
      obtain ⟨svc₀, _, service₀, same, renamed⟩ := service_of_advert inv trace old advert'
      obtain rfl := Option.some.inj (service'.symm.trans same)
      exact ⟨b, w, svc₀, old, rfl, service₀, by rw [renamed], pointer⟩
    · rintro ⟨b, w, svc₀, old, rfl, service₀, rfl, pointer⟩
      have apart : b ≠ a := by
        rintro rfl
        rcases stored with old' | ⟨new, _⟩
        · obtain rfl := Option.some.inj (old.symm.trans old')
          obtain ⟨_, svc', same, service', renamed⟩ := service_of_advert inv trace old advert
          obtain rfl := Option.some.inj (service₀.symm.trans same)
          obtain rfl := Option.some.inj (service.symm.trans service')
          exact different ⟨rfl, by rw [renamed]⟩
        · simp [new] at old
      have advert' := (others b w apart).mpr old
      obtain ⟨_, svc', same, service', renamed⟩ := service_of_advert inv trace old advert'
      obtain rfl := Option.some.inj (service₀.symm.trans same)
      exact ⟨b, w, svc', advert', rfl, service', by rw [renamed], pointer⟩

/-! ## The operations -/

theorem newAdvertisement_spec {φ : Phase} (inv : Inv ⟨φ, σ⟩) {c : ClientId} {svcname : Bytes}
    {func : BitVec 64} {a : AdvertId} (done : newAdvertisement c svcname func σ = .ok (a, τ)) :
    τ.sent = σ.sent ∧ ∃ v svc, τ.advert a = some v ∧ v.client = c ∧ τ.service v.svc = some svc ∧
      cname svc.svcname = cname svcname ∧
      (∀ b w, b ≠ a → (τ.advert b = some w ↔ σ.advert b = some w)) ∧
      (σ.advert a = some v ∨ σ.advert a = none ∧ v.opaqueFunc = func) := by
  have offered : ∀ {μ : State} {s : ServiceId} {svc : Service}, WaitQueues μ →
      μ.service s = some svc → cname svc.svcname = cname svcname → μ.sent = σ.sent →
      μ.advert = σ.advert → (μ.offer ⟨s, c, func⟩).sent = σ.sent ∧ ∃ v svc,
        (μ.offer ⟨s, c, func⟩).advert μ.next = some v ∧ v.client = c ∧
        (μ.offer ⟨s, c, func⟩).service v.svc = some svc ∧ cname svc.svcname = cname svcname ∧
        (∀ b w, b ≠ μ.next → ((μ.offer ⟨s, c, func⟩).advert b = some w ↔ σ.advert b = some w)) ∧
        (σ.advert μ.next = some v ∨ σ.advert μ.next = none ∧ v.opaqueFunc = func) := by
    intro μ s svc waits service name sent advert
    refine ⟨sent, ⟨s, c, func⟩, svc, put_eq_some_iff.mpr (.inl ⟨rfl, rfl⟩), rfl, service, name, ?_,
      .inr ⟨advert ▸ waits.fresh_advert, rfl⟩⟩
    intro b w different
    rw [← advert]
    exact put_eq_some_iff.trans (by simp [different])
  obtain ⟨s, μ, made, rest⟩ := newAdvertisement_ok_iff.mp done
  rcases newService_ok_iff.mp made with ⟨service, rfl⟩ | ⟨absent, rfl, rfl⟩
  · obtain ⟨svc, current, name⟩ := inv.registry.fndService_eq_some_iff.mp service
    rcases rest with ⟨found, rfl⟩ | ⟨_, _, rfl, rfl⟩
    · obtain ⟨x, v, live, member, advert, same⟩ :=
        inv.registry.fndAdvertisement_eq_some_iff.mp found
      obtain ⟨_, w, advert', owner, _⟩ := inv.registry.tree c x a live member
      obtain rfl := Option.some.inj (advert.symm.trans advert')
      obtain rfl := Option.some.inj (service.symm.trans same)
      exact ⟨rfl, v, svc, advert, owner, current, name.symm, fun _ _ _ => Iff.rfl, .inl advert⟩
    · exact offered inv.waits current name.symm rfl rfl
  · rcases rest with ⟨found, _⟩ | ⟨_, _, rfl, rfl⟩
    · simp [(fndAdvertisement_addService (c := c) inv absent).2] at found
    · exact offered (inv.waits.addService svcname) (put_eq_some_iff.mpr (.inl ⟨rfl, rfl⟩))
        (cname_strncpy svcname) rfl rfl

theorem inv_begin (inv : Inv ⟨{}, σ⟩) {c : ClientId} {handler : Handler} {filled : Bytes}
    {x : Client} {b : BufId} (received : Received σ e c handler filled) (live : σ.client c = some x)
    (into : x.input = some b) : Inv ⟨.called c x handler b, σ.begin c handler b filled⟩ := by
  obtain ⟨_, _, contents, live', into', reading, room, length, nonempty, _⟩ :=
    step_of_received received
  obtain rfl := Option.some.inj (live.symm.trans live')
  obtain rfl := Option.some.inj (into.symm.trans into')
  exact inv.effect (.begin received live into reading room length nonempty)

/-- `svradvertise` enters the pointer unless there is one, and says whether it is the one stored. -/
theorem svradvertise_refines (inv : Inv ⟨{}, σ⟩) {c : ClientId} {filled : Bytes}
    (received : Received σ e c .svradvertise filled) (done : step σ e = .ok τ) :
    τ.offers = σ.offers.advertise c (cname (filled.take XATMI_SERVICE_NAME_LENGTH))
        (tolong (filled.drop XATMI_SERVICE_NAME_LENGTH)) ∧
      τ.sent = (σ.write c (shortBytes
        (if τ.offers c (cname (filled.take XATMI_SERVICE_NAME_LENGTH)) =
            some (tolong (filled.drop XATMI_SERVICE_NAME_LENGTH)) then 0
          else BitVec.ofNat 16 TPEMATCH))).sent := by
  have trace := step_trace inv done
  obtain ⟨x, b, u, live, into, reading, called⟩ := runHandler_of_step received done
  simp only [runHandler, runCommand, svradvertise, bind_ok_iff, readBuf_ok_iff, tpfree_ok_iff,
    readAdvert_ok_iff, and_assoc, exists_and_left, exists_eq_left, exists_const] at called
  obtain ⟨contents, held, a, μ, made, _, v, advert, rest⟩ := called
  obtain rfl : filled = contents := Option.some.inj ((if_pos rfl).symm.trans held)
  obtain ⟨sent, w, svc, advert', rfl, service, name, others, stored⟩ :=
    newAdvertisement_spec (inv_begin inv received live into) made
  obtain rfl := Option.some.inj (advert.symm.trans advert')
  have after : τ.advert = μ.advert ∧ τ.service = μ.service ∧ τ.sent = (σ.write v.client (shortBytes
      (if v.opaqueFunc = tolong (filled.drop XATMI_SERVICE_NAME_LENGTH) then 0
        else BitVec.ofNat 16 TPEMATCH))).sent := by
    have sent : μ.sent = σ.sent := sent
    by_cases same : v.opaqueFunc = tolong (filled.drop XATMI_SERVICE_NAME_LENGTH)
    · rw [if_neg (not_not.mpr same)] at rest
      obtain ⟨_, rfl⟩ := answer_ok_iff.mp rest
      exact ⟨rfl, rfl, if_pos same ▸ State.write_sent_congr sent _ _⟩
    · rw [if_pos same] at rest
      obtain ⟨_, rfl⟩ := answer_ok_iff.mp rest
      exact ⟨rfl, rfl, if_neg same ▸ State.write_sent_congr sent _ _⟩
  obtain ⟨adverts, services, sent⟩ := after
  obtain ⟨map, here⟩ := offers_of_advertised inv trace (adverts ▸ advert) (services ▸ service)
    (adverts ▸ others) stored
  rw [name] at map here
  exact ⟨map, by rw [sent, here]; simp only [Option.some.injEq]⟩

theorem delAdvertisement_spec {depth : Nat} {a : AdvertId} {u : PUnit}
    (done : delAdvertisement depth a σ = .ok (u, τ)) : τ.sent = σ.sent ∧ τ.advert a = none := by
  induction depth generalizing a u σ τ with
  | zero => exact (throw_ok_iff.mp done).elim
  | succ depth ih =>
      obtain ⟨v, svc, _, _, _, _, ⟨_, rfl⟩ | ⟨_, _, μ, deleted, rfl⟩⟩ :=
        delAdvertisement_succ_ok_iff.mp done
      · exact ⟨rfl, if_pos rfl⟩
      · obtain ⟨_, _, ρ, _, rfl, ⟨_, loop⟩ | ⟨_, loop⟩⟩ := delService_ok_iff.mp deleted
        · have ⟨kept, _⟩ := whileLoop_ok (motive := fun s => s.sent = σ.sent) loop rfl
            (fun tested => (not_qisempty_ok_iff.mp tested).2.2) (by
              intro s s' _ kept _ worked
              simp only [bind_ok_iff, qfirst_ok_iff, nodeTran_ok_iff, delTransaction_ok_iff,
                and_assoc, exists_and_left, exists_eq_left] at worked
              obtain ⟨_, _, _, _, _, rfl⟩ := worked
              exact kept)
          exact ⟨kept, if_pos rfl⟩
        · have ⟨kept, _⟩ := whileLoop_ok (motive := fun s => s.sent = σ.sent) loop rfl
            (fun tested => (not_qisempty_ok_iff.mp tested).2.2) (by
              intro s s' _ kept _ worked
              simp only [bind_ok_iff, qfirst_ok_iff, nodeAdvert_ok_iff, and_assoc, exists_and_left,
                exists_eq_left] at worked
              obtain ⟨_, b, _, again⟩ := worked
              exact (ih again).1.trans kept)
          exact ⟨kept, if_pos rfl⟩

theorem fndAdvertisement_iff (registry : Registry {} σ) {c : ClientId} {name : Bytes}
    {a : AdvertId} :
    σ.fndAdvertisement c name = some a ↔ ∃ v svc, σ.advert a = some v ∧ v.client = c ∧
      σ.service v.svc = some svc ∧ cname svc.svcname = cname name := by
  rw [registry.fndAdvertisement_eq_some_iff]
  constructor
  · rintro ⟨x, v, live, member, advert, service⟩
    obtain ⟨_, w, advert', owner, _⟩ := registry.tree c x a live member
    obtain rfl := Option.some.inj (advert.symm.trans advert')
    obtain ⟨svc, current, name⟩ := registry.fndService_eq_some_iff.mp service
    exact ⟨v, svc, advert, owner, current, name.symm⟩
  · rintro ⟨v, svc, advert, rfl, service, name⟩
    obtain ⟨x, live, member⟩ := registry.offered a v advert (by simp)
    exact ⟨x, v, live, member, advert, registry.fndService_eq_some_iff.mpr ⟨svc, service,
      name.symm⟩⟩

theorem offers_cname (registry : Registry {} σ) {c : ClientId} {name : Bytes} :
    (σ.offers c (cname name)).isSome = (σ.fndAdvertisement c name).isSome := by
  rw [Bool.eq_iff_iff, Option.isSome_iff_exists, Option.isSome_iff_exists]
  simp only [offers_eq_some_iff registry, fndAdvertisement_iff registry]
  constructor
  · rintro ⟨_, a, v, svc, advert, owner, service, same, _⟩
    exact ⟨a, v, svc, advert, owner, service, same⟩
  · rintro ⟨a, v, svc, advert, owner, service, same⟩
    exact ⟨_, a, v, svc, advert, owner, service, same, rfl⟩

theorem advert_iff_of_trace (inv : Inv ⟨{}, σ⟩) (trace : Trace σ e ⟨{}, σ⟩ ⟨{}, τ⟩)
    (quiet : ∀ c name func, ¬Advertises σ e c name func)
    (gone : ∀ a, Withdraws σ e a → τ.advert a = none) (a : AdvertId) (v : Advert) :
    τ.advert a = some v ↔ σ.advert a = some v ∧ ¬Withdraws σ e a := by
  constructor
  · intro current
    refine ⟨(advert_of_trace trace current).resolve_right ?_, fun withdrawn => ?_⟩
    · rintro ⟨c, name, func, asked⟩
      exact quiet c name func asked
    · simp [gone a withdrawn] at current
  · rintro ⟨advert, kept⟩
    exact ((kept_of_trace inv trace advert).resolve_right kept).1

/-- `svrunadvertise` removes the pointer and says whether there was one. -/
theorem svrunadvertise_refines (inv : Inv ⟨{}, σ⟩) {c : ClientId} {filled : Bytes}
    (received : Received σ e c .svrunadvertise filled) (done : step σ e = .ok τ) :
    τ.offers = σ.offers.withdraw c (cname (filled.take XATMI_SERVICE_NAME_LENGTH)) ∧
      τ.sent = (σ.write c (shortBytes
        (if (σ.offers c (cname (filled.take XATMI_SERVICE_NAME_LENGTH))).isSome then 0
          else BitVec.ofNat 16 TPENOENT))).sent := by
  have registry : Registry {} σ := inv.registry
  have trace := step_trace inv done
  obtain ⟨x, b, u, live, into, reading, called⟩ := runHandler_of_step received done
  simp only [runHandler, runCommand, svrunadvertise, svrunadvertiseBy, delAdvertisementWith_plain,
    id_eq, bind_ok_iff, readBuf_ok_iff, get_ok_iff,
    tpfree_ok_iff, and_assoc, exists_and_left, exists_eq_left, exists_const] at called
  obtain ⟨contents, held, _, rest⟩ := called
  obtain rfl : filled = contents := Option.some.inj ((if_pos rfl).symm.trans held)
  rw [(sameTables_begin c .svrunadvertise b filled).fndAdvertisement_eq] at rest
  have withdraws : ∀ a, Withdraws σ e a ↔
      σ.fndAdvertisement c (filled.take XATMI_SERVICE_NAME_LENGTH) = some a := by
    intro a
    constructor
    · rintro (⟨k, _, filled', received', found⟩ | ⟨v, _, closes⟩)
      · have same := received'.symm.trans received
        simp only [Option.some.injEq, Prod.mk.injEq] at same
        obtain ⟨rfl, _, rfl⟩ := same
        exact found
      · exact absurd (closes.received received).1 (by decide)
    · intro found
      exact .inl ⟨c, (registry.mem_clients c).mpr ⟨x, live⟩, filled, received, found⟩
  have quiet : ∀ k name func, ¬Advertises σ e k name func := by
    rintro k name func ⟨filled', received', _⟩
    have same := received'.symm.trans received
    simp at same
  have answered : τ.sent = (σ.write c (shortBytes
      (if (σ.fndAdvertisement c (filled.take XATMI_SERVICE_NAME_LENGTH)).isSome then 0
        else BitVec.ofNat 16 TPENOENT))).sent ∧ ∀ a, Withdraws σ e a → τ.advert a = none := by
    cases found : σ.fndAdvertisement c (filled.take XATMI_SERVICE_NAME_LENGTH) with
    | none =>
        simp only [found] at rest
        obtain ⟨_, rfl⟩ := answer_ok_iff.mp rest
        refine ⟨rfl, fun a withdrawn => ?_⟩
        simp [(withdraws a).mp withdrawn] at found
    | some a =>
        simp only [found] at rest
        obtain ⟨_, μ, deleted, rest⟩ := bind_ok_iff.mp rest
        obtain ⟨_, rfl⟩ := answer_ok_iff.mp rest
        obtain ⟨sent, gone⟩ := delAdvertisement_spec deleted
        refine ⟨State.write_sent_congr sent _ _, fun a' withdrawn => ?_⟩
        obtain rfl := Option.some.inj (found.symm.trans ((withdraws a').mp withdrawn))
        exact gone
  obtain ⟨sent, gone⟩ := answered
  refine ⟨?_, by rw [offers_cname registry]; exact sent⟩
  have adverts := advert_iff_of_trace inv trace quiet gone
  funext k n
  refine Option.ext fun func => ?_
  rw [offers_of_kept inv trace adverts]
  unfold Offers.withdraw
  split
  · rename_i same
    obtain ⟨rfl, rfl⟩ := same
    simp only [reduceCtorEq, iff_false]
    rintro ⟨a, v, svc, advert, kept, owner, service, name, _⟩
    exact kept ((withdraws a).mpr ((fndAdvertisement_iff registry).mpr
      ⟨v, svc, advert, owner, service, name⟩))
  · rename_i different
    rw [offers_eq_some_iff registry]
    constructor
    · rintro ⟨a, v, svc, advert, _, rest⟩
      exact ⟨a, v, svc, advert, rest⟩
    · rintro ⟨a, v, svc, advert, rfl, service, rfl, pointer⟩
      refine ⟨a, v, svc, advert, fun withdrawn => ?_, rfl, service, rfl, pointer⟩
      obtain ⟨w, svc', advert', owner, service', name⟩ :=
        (fndAdvertisement_iff registry).mp ((withdraws a).mp withdrawn)
      obtain rfl := Option.some.inj (advert.symm.trans advert')
      obtain rfl := Option.some.inj (service.symm.trans service')
      exact different ⟨owner, name⟩

theorem advert_iff_of_closes (inv : Inv ⟨{}, σ⟩) (trace : Trace σ e ⟨{}, σ⟩ ⟨{}, τ⟩) {c : ClientId}
    (closes : Closes σ e c) (left : τ.client c = none) (a : AdvertId) (v : Advert) :
    τ.advert a = some v ↔ σ.advert a = some v ∧ ¬Withdraws σ e a := by
  have quiet : ∀ k name func, ¬Advertises σ e k name func := by
    rintro k name func ⟨filled, received, _⟩
    exact absurd (closes.received received).1 (by decide)
  refine advert_iff_of_trace inv trace quiet (fun a withdrawn => ?_) a v
  refine Option.eq_none_iff_forall_ne_some.mpr fun v current => ?_
  have advert := (advert_of_trace trace current).resolve_right
    fun ⟨k, name, func, asked⟩ => quiet k name func asked
  obtain ⟨x, live, _⟩ := (inv.trace trace).registry.offered a v current (by simp)
  rw [(closes.withdraws_iff advert).mp withdrawn, left] at live
  cases live

theorem delClient_refines (inv : Inv ⟨{}, σ⟩) {c : ClientId} (closes : Closes σ e c)
    (done : step σ e = .ok τ) : τ.offers = σ.offers.leave c := by
  have registry : Registry {} σ := inv.registry
  have trace := step_trace inv done
  obtain ⟨_, _, _, _, deleted⟩ := delClient_of_step closes done
  have left : τ.client c = none := client_of_delClient deleted
  funext k n
  refine Option.ext fun func => ?_
  rw [offers_of_kept inv trace (advert_iff_of_closes inv trace closes left)]
  unfold Offers.leave
  split
  · rename_i same
    subst same
    simp only [reduceCtorEq, iff_false]
    rintro ⟨a, v, svc, advert, kept, owner, _⟩
    exact kept ((closes.withdraws_iff advert).mpr owner)
  · rename_i different
    rw [offers_eq_some_iff registry]
    constructor
    · rintro ⟨a, v, svc, advert, _, rest⟩
      exact ⟨a, v, svc, advert, rest⟩
    · rintro ⟨a, v, svc, advert, rfl, rest⟩
      exact ⟨a, v, svc, advert, fun withdrawn =>
        different ((closes.withdraws_iff advert).mp withdrawn), rfl, rest⟩

theorem others_refine (inv : Inv ⟨{}, σ⟩)
    (noAdvertise : ∀ c filled, ¬Received σ e c .svradvertise filled)
    (noUnadvertise : ∀ c filled, ¬Received σ e c .svrunadvertise filled)
    (noClose : ∀ c, ¬Closes σ e c) (done : step σ e = .ok τ) : τ.offers = σ.offers := by
  have trace := step_trace inv done
  have quiet : ∀ a, ¬Withdraws σ e a := by
    rintro a (⟨c, _, filled, received, _⟩ | ⟨v, _, closes⟩)
    · exact noUnadvertise c filled received
    · exact noClose v.client closes
  have adverts := advert_iff_of_trace inv trace
    (by rintro c name func ⟨filled, received, _⟩; exact noAdvertise c filled received)
    (fun a withdrawn => absurd withdrawn (quiet a))
  funext c n
  refine Option.ext fun func => ?_
  rw [offers_of_kept inv trace adverts, offers_eq_some_iff inv.registry]
  simp only [quiet, not_false_eq_true, true_and]

/-! ## Services -/

/-- Every service has an advertisement, except while one is being made or deleted. -/
def Advertised (φ : Phase) (σ : State) : Prop :=
  ∀ s svc, σ.service s = some svc → φ.orphan ≠ some s → φ.made ≠ some s →
    ∃ a v, σ.advert a = some v ∧ v.svc = s

namespace Advertised

variable {φ φ' : Phase}

theorem congr (inv : Advertised φ σ) (service : ∀ s svc, τ.service s = some svc →
      ∃ old, σ.service s = some old) (advert : τ.advert = σ.advert)
    (orphan : φ'.orphan = φ.orphan) (made : φ'.made = φ.made) : Advertised φ' τ := by
  intro s svc current notOrphan notMade
  obtain ⟨old, current'⟩ := service s svc current
  rw [advert]
  exact inv s old current' (orphan ▸ notOrphan) (made ▸ notMade)

theorem effect (inv : Advertised φ σ) (waits : WaitQueues σ)
    (eff : Effect σ₀ e ⟨φ, σ⟩ ⟨φ', τ⟩) : Advertised φ' τ := by
  have same : ∀ s svc, σ.service s = some svc → ∃ old, σ.service s = some old :=
    fun _ svc current => ⟨svc, current⟩
  cases eff with
  | connect | fill | begin | call | write | release | resize | armHeader | next | submit | armUpload
  | assignUp | assignWork | rest | block | replyQueued | replyWaiting | requeue | setReturn
  | armReturn | finish | fail | spare | detach | sweep | purge | dropClient =>
      exact inv.congr same rfl rfl rfl
  | enqueue | park =>
      exact inv.congr (fun _ svc current => exists_change_eq_some_iff.mp ⟨svc, current⟩) rfl rfl rfl
  | close _ quiet => rcases quiet with rfl | rfl <;> exact inv.congr same rfl rfl rfl
  | done quiet => rcases quiet with rfl | ⟨c, rfl⟩ | ⟨c, rfl⟩ <;> exact inv.congr same rfl rfl rfl
  | found _ _ _ noMade =>
      intro s svc current notOrphan notMade
      rcases put_eq_some_iff.mp current with ⟨rfl, _⟩ | ⟨_, current⟩
      · exact absurd rfl notMade
      · exact inv s svc current notOrphan (by simp [noMade])
  | @offer _ _ c x v _ _ _ _ _ _ _ _ first =>
      intro s svc current notOrphan _
      by_cases mine : v.svc = s
      · exact ⟨_, v, put_eq_some_iff.mpr (.inl ⟨rfl, rfl⟩), mine⟩
      · obtain ⟨a, w, advert, for_⟩ := inv s svc current notOrphan fun made => mine (first s made)
        refine ⟨a, w, put_eq_some_iff.mpr (.inr ⟨?_, advert⟩), for_⟩
        rintro rfl
        simp [waits.fresh_advert] at advert
  | orphan =>
      intro s svc current notOrphan notMade
      exact inv s svc current (by simp [*]) notMade
  | dropService orphan =>
      intro s svc current _ notMade
      rcases put_eq_some_iff.mp current with ⟨_, impossible⟩ | ⟨different, current⟩
      · cases impossible
      · refine inv s svc current ?_ notMade
        rw [orphan]
        exact fun same => different (Option.some.inj same).symm
  | @dropAdvert _ _ a _ _ others =>
      intro s svc current notOrphan notMade
      obtain ⟨b, w, advert, rfl⟩ := inv s svc current notOrphan notMade
      by_cases same : b = a
      · subst same
        obtain ⟨b', w', different, advert', for_⟩ := others w svc advert current
        exact ⟨b', w', put_eq_some_iff.mpr (.inr ⟨different, advert'⟩), for_⟩
      · exact ⟨b, w, put_eq_some_iff.mpr (.inr ⟨same, advert⟩), rfl⟩

theorem trace {κ : Conf} (inv : Advertised {} σ₀) (start : Inv ⟨{}, σ₀⟩)
    (trace : Trace σ₀ e ⟨{}, σ₀⟩ κ) :
    Advertised κ.phase κ.state := by
  induction trace with
  | refl => exact inv
  | tail sofar eff ih => exact ih.effect (start.trace sofar).waits eff

end Advertised

theorem advertised_of_reachable (reach : Reachable anyStep σ) : Advertised {} σ := by
  refine Reachable.induction (motive := fun κ => Advertised κ.phase κ.state) ?_ ?_ reach
  · simp [Advertised, State.start]
  · rintro σ₀ e ⟨φ, σ⟩ ⟨φ', τ⟩ _ _ _ _ all inv eff
    exact inv.effect all.waits eff

theorem service_iff_offered (reach : Reachable anyStep σ) (name : Bytes) :
    (∃ s svc, σ.service s = some svc ∧ cname svc.svcname = name) ↔
      ∃ c ∈ σ.clients, (σ.offers c name).isSome := by
  have registry : Registry {} σ := (inv_of_reachable reach).registry
  constructor
  · rintro ⟨s, svc, service, rfl⟩
    obtain ⟨a, v, advert, rfl⟩ := advertised_of_reachable reach s svc service (by simp) (by simp)
    obtain ⟨x, live, _⟩ := registry.offered a v advert (by simp)
    refine ⟨v.client, (registry.mem_clients _).mpr ⟨x, live⟩, Option.isSome_iff_exists.mpr ?_⟩
    exact ⟨v.opaqueFunc, (offers_eq_some_iff registry).mpr ⟨a, v, svc, advert, rfl, service,
      rfl, rfl⟩⟩
  · rintro ⟨c, _, offered⟩
    obtain ⟨func, offered⟩ := Option.isSome_iff_exists.mp offered
    obtain ⟨_, v, svc, _, _, service, named, _⟩ := (offers_eq_some_iff registry).mp offered
    exact ⟨v.svc, svc, service, named⟩

theorem countP_services (reach : Reachable anyStep σ) (name : Bytes) :
    (σ.services.countP fun s => (σ.service s).any fun svc => cname svc.svcname = name) =
      if ∃ c ∈ σ.clients, (σ.offers c name).isSome then 1 else 0 := by
  have registry : Registry {} σ := (inv_of_reachable reach).registry
  split
  · rename_i offered
    obtain ⟨s, svc, service, rfl⟩ := (service_iff_offered reach name).mpr offered
    have same : ∀ s' ∈ σ.services, ((σ.service s').any fun svc' =>
        decide (cname svc'.svcname = cname svc.svcname)) = true ↔ (s' == s) = true := by
      intro s' _
      simp only [Option.any_eq_true, decide_eq_true_eq, beq_iff_eq]
      constructor
      · rintro ⟨svc', service', named⟩
        exact registry.names s' s svc' svc service' service named
      · rintro rfl
        exact ⟨svc, service, rfl⟩
    rw [List.countP_congr same]
    exact List.count_eq_one_of_mem registry.services_nodup ((registry.mem_services s).mpr
      ⟨svc, service⟩)
  · rename_i absent
    refine List.countP_eq_zero.mpr fun s _ named => absent ((service_iff_offered reach name).mp ?_)
    simp only [Option.any_eq_true, decide_eq_true_eq] at named
    exact ⟨s, named⟩

theorem fndService_isSome_iff (reach : Reachable anyStep σ) (name : Bytes) :
    (σ.fndService name).isSome ↔ ∃ c ∈ σ.clients, (σ.offers c (cname name)).isSome := by
  have registry : Registry {} σ := (inv_of_reachable reach).registry
  rw [← service_iff_offered reach, Option.isSome_iff_exists]
  simp only [registry.fndService_eq_some_iff, eq_comm]

end Switchboard
end Xatmi
