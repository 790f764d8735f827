import Xatmi.Switchboard.Effect

/-!
# Clients, services and advertisements

Which objects there are and how they refer to each other: `tpclients` and `services` list the
current clients and services, every current advertisement is in the tree of its client, and the
service it is for exists. An advertisement that is being deleted is out of its tree already, and may
have lost its service.
-/

namespace Xatmi
namespace Switchboard

/-! ## Stores -/

theorem change_map {α β : Type} {store : Nat → Option α} {key k : Nat} {update : α → α}
    {view : α → β} (same : ∀ x, view (update x) = view x) :
    (change store key update k).map view = (store k).map view := by
  unfold change
  split
  · simp [Option.map_map, Function.comp_def, same]
  · rfl

/-- Two stores that agree on a view agree on what it shows of current objects. -/
theorem exists_of_map_eq {α β : Type} {first second : Option α} {view : α → β} {x : α}
    (same : first.map view = second.map view) (found : first = some x) :
    ∃ y, second = some y ∧ view y = view x := by
  rw [found, Option.map_some] at same
  exact Option.map_eq_some_iff.mp same.symm

theorem exists_iff_of_map_eq {α β : Type} {first second : Option α} {view : α → β}
    (same : first.map view = second.map view) :
    (∃ x, first = some x) ↔ ∃ y, second = some y :=
  ⟨fun ⟨_, found⟩ => (exists_of_map_eq same found).imp fun _ => And.left,
    fun ⟨_, found⟩ => (exists_of_map_eq same.symm found).imp fun _ => And.left⟩

/-! ## Names -/

theorem cname_strncpy (name : Bytes) : cname (strncpy name) = cname name := by
  have nonzero : ∀ byte ∈ cname name, byte ≠ 0 := by
    intro byte member
    simpa using List.all_eq_true.mp List.all_takeWhile byte member
  have short : (cname name).length ≤ XATMI_SERVICE_NAME_LENGTH := by
    exact ((List.takeWhile_sublist _).length_le).trans (List.length_take_le _ _)
  have whole : (strncpy name).take XATMI_SERVICE_NAME_LENGTH = strncpy name := by
    apply List.take_of_length_le
    simp only [strncpy, List.length_append, List.length_replicate]
    omega
  rw [cname, whole, strncpy, List.takeWhile_append_of_pos (by simpa using nonzero)]
  simp

/-- What holds of the registries in every reachable memory. -/
structure Registry (φ : Phase) (σ : State) : Prop where
  clients_nodup : σ.clients.Nodup
  mem_clients : ∀ c, c ∈ σ.clients ↔ ∃ x, σ.client c = some x
  services_nodup : σ.services.Nodup
  mem_services : ∀ s, s ∈ σ.services ↔ ∃ svc, σ.service s = some svc
  /-- Names of services are unique. -/
  names : ∀ s s' svc svc', σ.service s = some svc → σ.service s' = some svc' →
    cname svc.svcname = cname svc'.svcname → s = s'
  tree_nodup : ∀ c x, σ.client c = some x → x.adverts.Nodup
  /-- What is in a tree is a current advertisement of the client for a current service. -/
  tree : ∀ c x a, σ.client c = some x → a ∈ x.adverts → φ.det ≠ some a ∧
    ∃ v, σ.advert a = some v ∧ v.client = c ∧ ∃ svc, σ.service v.svc = some svc
  /-- A client advertises a service once. -/
  tree_svc : ∀ c x a b v w, σ.client c = some x → a ∈ x.adverts → b ∈ x.adverts →
    σ.advert a = some v → σ.advert b = some w → v.svc = w.svc → a = b
  /-- A current advertisement is in its client's tree. -/
  offered : ∀ a v, σ.advert a = some v → φ.det ≠ some a →
    ∃ x, σ.client v.client = some x ∧ a ∈ x.adverts
  /-- An orphaned service has only the advertisement that is being deleted. -/
  orphan : ∀ s, φ.orphan = some s → (∃ svc, σ.service s = some svc) ∧
    ∀ b w, σ.advert b = some w → w.svc = s → φ.det = some b

namespace Registry

variable {φ φ' : Phase} {σ τ : State}

theorem start : Registry {} .start := by
  constructor <;> simp [State.start]

/-- The registries depend on the trees, the names of the services and the advertisements. -/
theorem congr (inv : Registry φ σ) (clients : τ.clients = σ.clients)
    (client : ∀ c, (τ.client c).map Client.adverts = (σ.client c).map Client.adverts)
    (services : τ.services = σ.services)
    (service : ∀ s, (τ.service s).map Service.svcname = (σ.service s).map Service.svcname)
    (advert : τ.advert = σ.advert) (det : φ'.det = φ.det) (orphan : φ'.orphan = φ.orphan) :
    Registry φ' τ := by
  have serviceIff := fun s => exists_iff_of_map_eq (service s)
  constructor
  · exact clients ▸ inv.clients_nodup
  · intro c
    rw [clients, exists_iff_of_map_eq (client c)]
    exact inv.mem_clients c
  · exact services ▸ inv.services_nodup
  · intro s
    rw [services, serviceIff]
    exact inv.mem_services s
  · intro s s' svc svc' found found' same
    obtain ⟨old, seen, name⟩ := exists_of_map_eq (service s) found
    obtain ⟨old', seen', name'⟩ := exists_of_map_eq (service s') found'
    exact inv.names s s' old old' seen seen' (by rw [name, name', same])
  · intro c x live
    obtain ⟨y, live', adverts⟩ := exists_of_map_eq (client c) live
    exact adverts ▸ inv.tree_nodup c y live'
  · intro c x a live member
    obtain ⟨y, live', adverts⟩ := exists_of_map_eq (client c) live
    rw [det, advert]
    simp only [serviceIff]
    exact inv.tree c y a live' (adverts ▸ member)
  · intro c x a b v w live member member'
    obtain ⟨y, live', adverts⟩ := exists_of_map_eq (client c) live
    rw [advert]
    exact inv.tree_svc c y a b v w live' (adverts ▸ member) (adverts ▸ member')
  · intro a v found notDet
    rw [advert] at found
    obtain ⟨x, live, member⟩ := inv.offered a v found (det ▸ notDet)
    obtain ⟨y, live', adverts⟩ := exists_of_map_eq (client v.client).symm live
    exact ⟨y, live', adverts ▸ member⟩
  · intro s lost
    rw [serviceIff, advert, det]
    exact inv.orphan s (orphan ▸ lost)

/-! ## Lookups -/

theorem fndService_eq_some_iff (inv : Registry φ σ) {name : Bytes} {s : ServiceId} :
    σ.fndService name = some s ↔
      ∃ svc, σ.service s = some svc ∧ cname name = cname svc.svcname := by
  have spec : ∀ {s}, σ.fndService name = some s →
      ∃ svc, σ.service s = some svc ∧ cname name = cname svc.svcname := by
    intro s found
    have := List.find?_some found
    simpa [Option.any_eq_true, sameName] using this
  constructor
  · exact spec
  · rintro ⟨svc, current, same⟩
    cases found : σ.fndService name with
    | none =>
        have missing := List.find?_eq_none.mp found s ((inv.mem_services s).mpr ⟨svc, current⟩)
        simp [current, sameName, same] at missing
    | some s' =>
        obtain ⟨svc', current', same'⟩ := spec found
        exact congrArg some (inv.names s' s svc' svc current' current (same'.symm.trans same))

theorem fndAdvertisement_eq_some_iff (inv : Registry φ σ) {c : ClientId} {name : Bytes}
    {a : AdvertId} :
    σ.fndAdvertisement c name = some a ↔
      ∃ x v, σ.client c = some x ∧ a ∈ x.adverts ∧ σ.advert a = some v ∧
        σ.fndService name = some v.svc := by
  simp only [State.fndAdvertisement, Option.bind_eq_some_iff]
  have visit : ∀ {x b v s svc}, σ.client c = some x → b ∈ x.adverts → σ.advert b = some v →
      σ.service s = some svc → ((σ.advertName b).any (sameName svc.svcname) = true ↔
        v.svc = s) := by
    intro x b v s svc live member found current
    obtain ⟨_, v', found', _, svc', current'⟩ := inv.tree c x b live member
    obtain rfl := Option.some.inj (found.symm.trans found')
    simp only [State.advertName, found, Option.bind_some, current', Option.map_some,
      Option.any_some, sameName, decide_eq_true_eq]
    constructor
    · intro same
      exact inv.names _ _ _ _ current' current same.symm
    · rintro rfl
      rw [Option.some.inj (current.symm.trans current')]
  constructor
  · rintro ⟨s, service, svc, current, x, live, found⟩
    have member := List.mem_of_find?_eq_some found
    obtain ⟨_, v, advert, _⟩ := inv.tree c x a live member
    have seen := List.find?_some found
    obtain rfl := (visit live member advert current).mp seen
    exact ⟨x, v, live, member, advert, service⟩
  · rintro ⟨x, v, live, member, advert, service⟩
    obtain ⟨svc, current, _⟩ := inv.fndService_eq_some_iff.mp service
    refine ⟨v.svc, service, svc, current, x, live, ?_⟩
    cases found : x.adverts.find? fun a => (σ.advertName a).any (sameName svc.svcname) with
    | none =>
        exact absurd ((visit live member advert current).mpr rfl)
          (List.find?_eq_none.mp found a member)
    | some b =>
        have member' := List.mem_of_find?_eq_some found
        obtain ⟨_, w, advert', _⟩ := inv.tree c x b live member'
        have seen := List.find?_some found
        have same := (visit live member' advert' current).mp seen
        exact congrArg some (inv.tree_svc c x b a w v live member' member advert' advert same)

/-- The advertisements that a walk of a tree visits are current. -/
theorem current (inv : Registry φ σ) {c : ClientId} {x : Client} {adverts : List AdvertId}
    (live : σ.client c = some x) (perm : adverts.Perm x.adverts) :
    ∀ a ∈ adverts, ∃ v, σ.advert a = some v := by
  intro a member
  obtain ⟨_, v, advert, _⟩ := inv.tree c x a live (perm.mem_iff.mp member)
  exact ⟨v, advert⟩

theorem det_of_not_advertised (inv : Registry φ σ) {s : ServiceId} {svc : Service}
    (current : σ.service s = some svc) (alone : σ.someoneAdvertises svc.svcname = false)
    {b : AdvertId} {w : Advert} (advert : σ.advert b = some w) (same : w.svc = s) :
    φ.det = some b := by
  by_contra notDet
  obtain ⟨x, live, member⟩ := inv.offered b w advert notDet
  have service : σ.fndService svc.svcname = some w.svc :=
    inv.fndService_eq_some_iff.mpr ⟨svc, same ▸ current, rfl⟩
  have found : σ.fndAdvertisement w.client svc.svcname = some b :=
    inv.fndAdvertisement_eq_some_iff.mpr ⟨x, w, live, member, advert, service⟩
  have connected : w.client ∈ σ.clients := (inv.mem_clients w.client).mpr ⟨x, live⟩
  simp only [State.someoneAdvertises, List.any_eq_false] at alone
  exact alone w.client connected (by simp [found])

theorem other_of_advertised (inv : Registry φ σ) {a : AdvertId} {s : ServiceId} {svc : Service}
    (det : φ.det = some a) (current : σ.service s = some svc)
    (advertised : σ.someoneAdvertises svc.svcname = true) :
    ∃ b w, b ≠ a ∧ σ.advert b = some w ∧ w.svc = s := by
  simp only [State.someoneAdvertises, List.any_eq_true, Option.isSome_iff_exists] at advertised
  obtain ⟨c, _, b, found⟩ := advertised
  obtain ⟨x, w, live, member, advert, service⟩ := inv.fndAdvertisement_eq_some_iff.mp found
  have same := inv.fndService_eq_some_iff.mpr ⟨svc, current, rfl⟩
  refine ⟨b, w, ?_, advert, Option.some.inj (service.symm.trans same)⟩
  rintro rfl
  exact (inv.tree c x b live member).1 det

/-! ## Effects -/

theorem addClient (inv : Registry φ σ) (fresh : σ.client σ.next = none) :
    Registry φ σ.addClient := by
  have new : σ.next ∉ σ.clients := by simp [inv.mem_clients, fresh]
  constructor
  · simpa [State.addClient, List.nodup_append] using ⟨inv.clients_nodup, by grind⟩
  · intro c
    simp only [State.addClient, List.mem_append, List.mem_singleton, inv.mem_clients,
      put_eq_some_iff]
    grind
  · exact inv.services_nodup
  · exact inv.mem_services
  · exact inv.names
  · intro c x live
    rcases put_eq_some_iff.mp live with ⟨_, made⟩ | ⟨_, live⟩
    · simp [← Option.some.inj made]
    · exact inv.tree_nodup c x live
  · intro c x a live member
    rcases put_eq_some_iff.mp live with ⟨_, made⟩ | ⟨_, live⟩
    · simp [← Option.some.inj made] at member
    · exact inv.tree c x a live member
  · intro c x a b v w live member
    rcases put_eq_some_iff.mp live with ⟨_, made⟩ | ⟨_, live⟩
    · simp [← Option.some.inj made] at member
    · exact inv.tree_svc c x a b v w live member
  · intro a v found notDet
    obtain ⟨x, live, member⟩ := inv.offered a v found notDet
    refine ⟨x, put_eq_some_iff.mpr (.inr ⟨?_, live⟩), member⟩
    rintro same
    simp [same, fresh] at live
  · exact inv.orphan

theorem dropClient (inv : Registry φ σ) {c : ClientId} {x : Client} (live : σ.client c = some x)
    (withdrawn : x.adverts = []) : Registry φ (σ.dropClient c) := by
  have other : ∀ {k y}, (σ.dropClient c).client k = some y → k ≠ c ∧ σ.client k = some y := by
    intro k y live'
    rcases put_eq_some_iff.mp live' with ⟨_, impossible⟩ | remaining
    · cases impossible
    · exact remaining
  constructor
  · exact inv.clients_nodup.erase c
  · intro k
    simp only [State.dropClient, inv.clients_nodup.mem_erase_iff, inv.mem_clients, put_eq_some_iff]
    grind
  · exact inv.services_nodup
  · exact inv.mem_services
  · exact inv.names
  · exact fun k y live' => inv.tree_nodup k y (other live').2
  · exact fun k y a live' => inv.tree k y a (other live').2
  · exact fun k y a b v w live' => inv.tree_svc k y a b v w (other live').2
  · intro a v found notDet
    obtain ⟨y, live', member⟩ := inv.offered a v found notDet
    refine ⟨y, put_eq_some_iff.mpr (.inr ⟨?_, live'⟩), member⟩
    rintro same
    rw [same, live] at live'
    simp [← Option.some.inj live', withdrawn] at member
  · exact inv.orphan

theorem addService (inv : Registry φ σ) (fresh : σ.service σ.next = none) {svcname : Bytes}
    (absent : σ.fndService svcname = none) : Registry φ (σ.addService svcname) := by
  have new : σ.next ∉ σ.services := by simp [inv.mem_services, fresh]
  have keeps : ∀ {s svc}, σ.service s = some svc → (σ.addService svcname).service s = some svc := by
    intro s svc current
    refine put_eq_some_iff.mpr (.inr ⟨?_, current⟩)
    rintro rfl
    simp [fresh] at current
  have unnamed : ∀ {s svc}, σ.service s = some svc →
      cname svc.svcname ≠ cname (strncpy svcname) := by
    intro s svc current same
    rw [cname_strncpy] at same
    have := inv.fndService_eq_some_iff.mpr ⟨svc, current, same.symm⟩
    simp [absent] at this
  constructor
  · exact inv.clients_nodup
  · exact inv.mem_clients
  · simpa [State.addService, List.nodup_append] using ⟨inv.services_nodup, by grind⟩
  · intro s
    simp only [State.addService, List.mem_append, List.mem_singleton, inv.mem_services,
      put_eq_some_iff]
    grind
  · intro s s' svc svc' found found' same
    rcases put_eq_some_iff.mp found with ⟨rfl, made⟩ | ⟨_, found⟩ <;>
      rcases put_eq_some_iff.mp found' with ⟨rfl, made'⟩ | ⟨_, found'⟩
    · rfl
    · obtain rfl := Option.some.inj made
      exact absurd same.symm (unnamed found')
    · obtain rfl := Option.some.inj made'
      exact absurd same (unnamed found)
    · exact inv.names s s' svc svc' found found' same
  · exact inv.tree_nodup
  · intro c x a live member
    obtain ⟨notDet, v, found, client, svc, current⟩ := inv.tree c x a live member
    exact ⟨notDet, v, found, client, svc, keeps current⟩
  · exact inv.tree_svc
  · exact inv.offered
  · intro s lost
    obtain ⟨⟨svc, current⟩, unique⟩ := inv.orphan s lost
    exact ⟨⟨svc, keeps current⟩, unique⟩

theorem dropService (inv : Registry φ σ) {s : ServiceId} (lost : φ.orphan = some s) :
    Registry { φ with orphan := none } (σ.dropService s) := by
  have other : ∀ {k svc}, (σ.dropService s).service k = some svc →
      k ≠ s ∧ σ.service k = some svc := by
    intro k svc current
    rcases put_eq_some_iff.mp current with ⟨_, impossible⟩ | remaining
    · cases impossible
    · exact remaining
  constructor
  · exact inv.clients_nodup
  · exact inv.mem_clients
  · exact inv.services_nodup.erase s
  · intro k
    simp only [State.dropService, inv.services_nodup.mem_erase_iff, inv.mem_services,
      put_eq_some_iff]
    grind
  · exact fun k k' svc svc' found found' => inv.names k k' svc svc' (other found).2 (other found').2
  · exact inv.tree_nodup
  · intro c x a live member
    obtain ⟨notDet, v, found, client, svc, current⟩ := inv.tree c x a live member
    refine ⟨notDet, v, found, client, svc, put_eq_some_iff.mpr (.inr ⟨?_, current⟩)⟩
    intro same
    exact notDet ((inv.orphan s lost).2 a v found same)
  · exact inv.tree_svc
  · exact inv.offered
  · simp

theorem offer (inv : Registry φ σ) (fresh : σ.advert σ.next = none) {x : Client} {v : Advert}
    {svcname : Bytes} (noDet : φ.det = none) (live : σ.client v.client = some x)
    (service : σ.fndService svcname = some v.svc)
    (absent : σ.fndAdvertisement v.client svcname = none) (noOrphan : φ.orphan = none) :
    Registry φ (σ.offer v) := by
  obtain ⟨svc, current, _⟩ := inv.fndService_eq_some_iff.mp service
  have new : ∀ {k y}, σ.client k = some y → σ.next ∉ y.adverts := by
    intro k y live' member
    obtain ⟨_, w, found, _⟩ := inv.tree k y σ.next live' member
    simp [fresh] at found
  have client : ∀ {k y}, (σ.offer v).client k = some y ↔ ∃ z, σ.client k = some z ∧
      y = if k = v.client then { z with adverts := z.adverts ++ [σ.next] } else z :=
    change_eq_some_iff
  have advert : ∀ {a w}, (σ.offer v).advert a = some w ↔
      a = σ.next ∧ w = v ∨ a ≠ σ.next ∧ σ.advert a = some w := by
    intro a w
    rw [eq_comm (a := w)]
    exact put_eq_some_iff.trans (by simp)
  have only : ∀ {b w}, b ∈ x.adverts → σ.advert b = some w → w.svc ≠ v.svc := by
    intro b w member found same
    have := inv.fndAdvertisement_eq_some_iff.mpr ⟨x, w, live, member, found, same ▸ service⟩
    simp [absent] at this
  constructor
  · exact inv.clients_nodup
  · intro c
    exact (inv.mem_clients c).trans exists_change_eq_some_iff.symm
  · exact inv.services_nodup
  · exact inv.mem_services
  · exact inv.names
  · intro c y live'
    obtain ⟨z, seen, rfl⟩ := client.mp live'
    have := inv.tree_nodup c z seen
    have := new seen
    split
    · simp only [List.nodup_append]
      grind
    · assumption
  · intro c y a live' member
    obtain ⟨z, seen, rfl⟩ := client.mp live'
    have old : a ∈ z.adverts → φ.det ≠ some a ∧
        ∃ w, (σ.offer v).advert a = some w ∧ w.client = c ∧ ∃ svc, σ.service w.svc = some svc := by
      intro inside
      obtain ⟨notDet, w, found, rest⟩ := inv.tree c z a seen inside
      refine ⟨notDet, w, advert.mpr (.inr ⟨?_, found⟩), rest⟩
      rintro rfl
      simp [fresh] at found
    split at member
    · rcases List.mem_append.mp member with inside | last
      · exact old inside
      · obtain rfl := List.mem_singleton.mp last
        exact ⟨by simp [noDet], v, advert.mpr (.inl ⟨rfl, rfl⟩), by grind, svc, current⟩
    · exact old member
  · intro c y a b w w' live' member member' found found' same
    obtain ⟨z, seen, rfl⟩ := client.mp live'
    have old := inv.tree_svc c z a b w w' seen
    have fresh' := new seen
    rcases advert.mp found with ⟨rfl, rfl⟩ | ⟨_, before⟩ <;>
      rcases advert.mp found' with ⟨rfl, rfl⟩ | ⟨_, before'⟩
    · rfl
    · have inside : b ∈ x.adverts := by grind
      exact absurd same.symm (only inside before')
    · have inside : a ∈ x.adverts := by grind
      exact absurd same (only inside before)
    · exact old (by grind) (by grind) before before' same
  · intro a w found notDet
    rcases advert.mp found with ⟨rfl, rfl⟩ | ⟨_, found⟩
    · exact ⟨_, client.mpr ⟨x, live, rfl⟩, by simp⟩
    · obtain ⟨z, seen, member⟩ := inv.offered a w found notDet
      exact ⟨_, client.mpr ⟨z, seen, rfl⟩, by grind⟩
  · simp [noOrphan]

theorem detach (inv : Registry φ σ) {a : AdvertId} {v : Advert} (noDet : φ.det = none)
    (noOrphan : φ.orphan = none) (advert : σ.advert a = some v) :
    Registry { φ with det := some a } (σ.detach a v.client) := by
  have client : ∀ {k y}, (σ.detach a v.client).client k = some y ↔ ∃ z, σ.client k = some z ∧
      y = if k = v.client then { z with adverts := z.adverts.erase a } else z :=
    change_eq_some_iff
  constructor
  · exact inv.clients_nodup
  · intro c
    exact (inv.mem_clients c).trans exists_change_eq_some_iff.symm
  · exact inv.services_nodup
  · exact inv.mem_services
  · exact inv.names
  · intro c y live'
    obtain ⟨z, seen, rfl⟩ := client.mp live'
    have := inv.tree_nodup c z seen
    split
    · exact this.erase a
    · exact this
  · intro c y b live' member
    obtain ⟨z, seen, rfl⟩ := client.mp live'
    have nodup := inv.tree_nodup c z seen
    have inside : b ∈ z.adverts := by grind [List.mem_of_mem_erase]
    obtain ⟨_, w, found, owner, rest⟩ := inv.tree c z b seen inside
    refine ⟨?_, w, found, owner, rest⟩
    intro same
    obtain rfl := Option.some.inj same
    obtain rfl := Option.some.inj (advert.symm.trans found)
    rw [if_pos owner.symm] at member
    exact nodup.not_mem_erase member
  · intro c y b b' w w' live' member member'
    obtain ⟨z, seen, rfl⟩ := client.mp live'
    exact inv.tree_svc c z b b' w w' seen (by grind [List.mem_of_mem_erase])
      (by grind [List.mem_of_mem_erase])
  · intro b w found notDet
    obtain ⟨z, seen, member⟩ := inv.offered b w found (by simp [noDet])
    refine ⟨_, client.mpr ⟨z, seen, rfl⟩, ?_⟩
    have different : b ≠ a := fun same => notDet (congrArg some same.symm)
    split
    · exact (List.mem_erase_of_ne different).mpr member
    · exact member
  · simp [noOrphan]

theorem dropAdvert (inv : Registry φ σ) {a : AdvertId} (det : φ.det = some a)
    (noOrphan : φ.orphan = none) :
    Registry { φ with det := none } (σ.dropAdvert a) := by
  have other : ∀ {b w}, (σ.dropAdvert a).advert b = some w → b ≠ a ∧ σ.advert b = some w := by
    intro b w found
    rcases put_eq_some_iff.mp found with ⟨_, impossible⟩ | remaining
    · cases impossible
    · exact remaining
  constructor
  · exact inv.clients_nodup
  · exact inv.mem_clients
  · exact inv.services_nodup
  · exact inv.mem_services
  · exact inv.names
  · exact inv.tree_nodup
  · intro c x b live member
    obtain ⟨notDet, w, found, rest⟩ := inv.tree c x b live member
    refine ⟨by simp, w, put_eq_some_iff.mpr (.inr ⟨?_, found⟩), rest⟩
    rintro rfl
    exact notDet det
  · exact fun c x b b' w w' live member member' found found' =>
      inv.tree_svc c x b b' w w' live member member' (other found).2 (other found').2
  · intro b w found _
    obtain ⟨different, found⟩ := other found
    refine inv.offered b w found ?_
    rw [det]
    exact fun same => different (Option.some.inj same).symm
  · simp [noOrphan]

theorem orphaned (inv : Registry φ σ) {v : Advert} {svc : Service}
    (service : σ.service v.svc = some svc) (alone : σ.someoneAdvertises svc.svcname = false) :
    Registry { φ with orphan := some v.svc } σ where
  __ := inv
  orphan := by
    rintro _ same
    obtain rfl := Option.some.inj same
    exact ⟨⟨svc, service⟩, fun b w found same => inv.det_of_not_advertised service alone found same⟩

theorem delTran (inv : Registry φ σ) (t : TranId) (tr : Transaction) :
    Registry φ (σ.delTran t tr) := by
  refine inv.congr rfl (fun c => ?_) rfl (fun _ => rfl) rfl rfl rfl
  simp only [State.delTran, Option.map_map]
  rfl

theorem phase (inv : Registry φ σ) (det : φ'.det = φ.det) (orphan : φ'.orphan = φ.orphan) :
    Registry φ' σ :=
  inv.congr rfl (fun _ => rfl) rfl (fun _ => rfl) rfl det orphan

theorem dismiss (inv : Registry φ σ) (adverts : List AdvertId) : Registry φ (σ.dismiss adverts) :=
  inv.congr rfl (fun _ => rfl) rfl (fun _ => rfl) rfl rfl rfl

theorem mapClient (inv : Registry φ σ) {c : ClientId} {update : Client → Client}
    (same : ∀ x, (update x).adverts = x.adverts) : Registry φ (σ.mapClient c update) :=
  inv.congr rfl (fun _ => change_map same) rfl (fun _ => rfl) rfl rfl rfl

theorem nextCommand (inv : Registry φ σ) (c : ClientId) : Registry φ (σ.nextCommand c) :=
  inv.congr rfl (fun _ => change_map fun _ => rfl) rfl (fun _ => rfl) rfl rfl rfl

theorem reply (inv : Registry φ σ) (t : TranId) (tr : Transaction) (contents : Bytes) :
    Registry φ (σ.reply t tr contents) := by
  have written : Registry φ (σ.write tr.client (replyFrame tr contents)) :=
    inv.congr rfl (fun _ => rfl) rfl (fun _ => rfl) rfl rfl rfl
  refine delTran ?_ t tr
  refine mapClient ?_ fun _ => rfl
  exact written.nextCommand tr.client

theorem assign (inv : Registry φ σ) (a : AdvertId) (v : Advert) (t : TranId) (frame : Bytes) :
    Registry φ (σ.assign a v t frame) := by
  refine nextCommand ?_ v.client
  exact inv.congr rfl (fun _ => change_map fun _ => rfl) rfl (fun _ => rfl) rfl rfl rfl

theorem effect {σ₀ : State} {e : Event} (inv : Registry φ σ) (freshClient : σ.client σ.next = none)
    (freshService : σ.service σ.next = none) (freshAdvert : σ.advert σ.next = none)
    (eff : Effect σ₀ e ⟨φ, σ⟩ ⟨φ', τ⟩) : Registry φ' τ := by
  cases eff with
  | connect =>
      exact (inv.addClient freshClient).congr rfl (fun _ => change_map fun _ => rfl) rfl
        (fun _ => rfl) rfl rfl rfl
  | fill | begin | armHeader | next | submit | armUpload | block | requeue | armReturn | finish
  | fail =>
      exact inv.congr rfl (fun _ => change_map fun _ => rfl) rfl (fun _ => rfl) rfl rfl rfl
  | assignUp => exact ((inv.dismiss _).assign _ _ _ _).phase rfl rfl
  | assignWork => exact (inv.dismiss _).assign _ _ _ _
  | call | write | release | resize | rest | spare | setReturn =>
      exact inv.congr rfl (fun _ => rfl) rfl (fun _ => rfl) rfl rfl rfl
  | enqueue | park =>
      exact inv.congr rfl (fun _ => rfl) rfl (fun _ => change_map fun _ => rfl) rfl rfl rfl
  | replyQueued => exact inv.reply _ _ _
  | replyWaiting => exact (inv.reply _ _ _).phase rfl rfl
  | sweep | purge => exact inv.delTran _ _
  | found _ absent => exact (inv.addService freshService absent).phase rfl rfl
  | offer _ noDet noOrphan live client service absent =>
      subst client
      exact (inv.offer freshAdvert noDet live service absent noOrphan).phase rfl rfl
  | close _ quiet =>
      rcases quiet with rfl | rfl <;> exact inv.phase rfl rfl
  | detach noDet noOrphan _ _ _ advert => exact inv.detach noDet noOrphan advert
  | orphan _ _ _ service alone => exact inv.orphaned service alone
  | dropService lost => exact inv.dropService lost
  | dropAdvert det noOrphan => exact inv.dropAdvert det noOrphan
  | dropClient _ _ _ live withdrawn =>
      exact (inv.dropClient live withdrawn).phase rfl rfl
  | done quiet =>
      rcases quiet with rfl | ⟨c, rfl⟩ | ⟨c, rfl⟩ <;> exact inv.phase rfl rfl

end Registry

end Switchboard
end Xatmi
