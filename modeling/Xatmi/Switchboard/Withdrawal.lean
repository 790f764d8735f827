import Xatmi.Switchboard.Handling

/-!
# Withdrawn advertisements and orphaned services

An event takes away only the advertisements of the client it deletes and the one that a `TPTUADV`
names, and a service goes away only when all its advertisements do.
-/

namespace Xatmi
namespace Switchboard

open Relation

/-- The event withdraws advertisement `a`: its client sends `TPTUADV` for it, or is deleted. -/
def Withdraws (σ : State) (e : Event) (a : AdvertId) : Prop :=
  (∃ c ∈ σ.clients, Unadvertises σ e c a) ∨ ∃ v ∈ σ.advert a, Closes σ e v.client

/-- The event withdraws every advertisement for service `s`. -/
def Orphans (σ : State) (e : Event) (s : ServiceId) : Prop :=
  ∀ c ∈ σ.clients, ∀ x ∈ σ.client c, ∀ a ∈ x.adverts, ∀ v ∈ σ.advert a, v.svc = s → Withdraws σ e a

instance (σ : State) (e : Event) (a : AdvertId) : Decidable (Withdraws σ e a) :=
  inferInstanceAs (Decidable (_ ∨ _))

instance (σ : State) (e : Event) (s : ServiceId) : Decidable (Orphans σ e s) :=
  inferInstanceAs (Decidable (∀ c ∈ σ.clients, ∀ x ∈ σ.client c, ∀ a ∈ x.adverts, ∀ v ∈ σ.advert a,
    v.svc = s → Withdraws σ e a))

variable {σ₀ : State} {e : Event} {κ : Conf}

theorem kept_of_trace (start : Inv ⟨{}, σ₀⟩) (trace : Trace σ₀ e ⟨{}, σ₀⟩ κ) {a : AdvertId}
    {v : Advert} (advert : σ₀.advert a = some v) :
    κ.state.advert a = some v ∧ κ.phase.det ≠ some a ∨ Withdraws σ₀ e a := by
  induction trace with
  | refl => exact .inl ⟨advert, by simp⟩
  | @tail κ κ' sofar eff ih =>
      rcases ih with ⟨current, notDet⟩ | withdrawn
      · have inv := start.trace sofar
        cases eff with
        | begin => exact .inl ⟨current, by simp [Phase.called]⟩
        | close | done => exact .inl ⟨current, by simp⟩
        | @offer _ σ =>
            have waits : WaitQueues σ := inv.waits
            refine .inl ⟨put_eq_some_iff.mpr (.inr ⟨?_, current⟩), notDet⟩
            rintro rfl
            simp [waits.fresh_advert] at current
        | @detach _ _ c x b w _ _ live mine reason =>
            by_cases same : b = a
            · subst same
              obtain ⟨_, w', current', owner, _⟩ := inv.registry.tree c x b live mine
              obtain rfl := Option.some.inj (current.symm.trans current')
              refine .inr (reason.elim ?_ ?_)
              · rintro ⟨closing, _⟩
                exact .inr ⟨v, advert, owner ▸ closes_of_trace sofar closing⟩
              · rintro ⟨_, unadvertises, tables⟩
                obtain ⟨x₀, live₀, _⟩ := exists_of_map_eq (tables.client c) live
                exact .inl ⟨c, (start.registry.mem_clients c).mpr ⟨x₀, live₀⟩, unadvertises⟩
            · exact .inl ⟨current, fun det => same (Option.some.inj det)⟩
        | @dropAdvert _ _ b det =>
            refine .inl ⟨put_eq_some_iff.mpr (.inr ⟨?_, current⟩), by simp⟩
            rintro rfl
            exact notDet det
        | _ => exact .inl ⟨current, notDet⟩
      · exact .inr withdrawn

/-- A service that is going away is one whose advertisements are all withdrawn. -/
theorem orphans_of_trace (start : Inv ⟨{}, σ₀⟩) (trace : Trace σ₀ e ⟨{}, σ₀⟩ κ) {s : ServiceId}
    (orphan : κ.phase.orphan = some s) : Orphans σ₀ e s := by
  rintro c _ x live a member v advert same
  rcases kept_of_trace start trace advert with ⟨current, notDet⟩ | withdrawn
  · exact absurd (((start.trace trace).registry.orphan s orphan).2 a v current same) notDet
  · exact withdrawn

/-- An advertisement is an old one, unless the event is a `TPTADVT`. -/
theorem advert_of_trace (trace : Trace σ₀ e ⟨{}, σ₀⟩ κ) {a : AdvertId} {v : Advert}
    (advert : κ.state.advert a = some v) :
    σ₀.advert a = some v ∨ ∃ c svcname func, Advertises σ₀ e c svcname func := by
  induction trace with
  | refl => exact .inl advert
  | tail sofar eff ih =>
      cases eff with
      | offer _ _ _ _ _ _ _ _ asked => exact .inr ⟨_, _, _, asked⟩
      | dropAdvert => exact ih (put_none_eq_some_iff.mp advert).2
      | _ => exact ih advert

/-- Services keep their names. -/
theorem service_of_trace (trace : Trace σ₀ e ⟨{}, σ₀⟩ κ) {s : ServiceId} {svc : Service}
    (current : κ.state.service s = some svc) :
    (∃ svc₀, σ₀.service s = some svc₀ ∧ svc₀.svcname = svc.svcname) ∨ σ₀.next ≤ s := by
  induction trace generalizing svc with
  | refl => exact .inl ⟨svc, current, rfl⟩
  | @tail κ κ' sofar eff ih =>
      have changed : ∀ {key update}, change κ.state.service key update s = some svc →
          (∀ x, (update x).svcname = x.svcname) →
          (∃ svc₀, σ₀.service s = some svc₀ ∧ svc₀.svcname = svc.svcname) ∨ σ₀.next ≤ s := by
        intro key update current same
        obtain ⟨old, current', rfl⟩ := change_eq_some_iff.mp current
        have name : (if s = key then update old else old).svcname = old.svcname := by
          split
          · exact same old
          · rfl
        rw [name]
        exact ih current'
      cases eff with
      | enqueue | park => exact changed current fun _ => rfl
      | found =>
          rcases put_eq_some_iff.mp current with ⟨rfl, _⟩ | ⟨_, current⟩
          · exact .inr (next_le_of_trace sofar)
          · exact ih current
      | dropService => exact ih (put_none_eq_some_iff.mp current).2
      | _ => exact ih current

/-! ## Kinds of events -/

/-- A client is deleted only by an event of its own that completes nothing but a command. -/
theorem Closes.received {c k : ClientId} {handler : Handler} {filled : Bytes}
    (closes : Closes σ₀ e c) (received : Received σ₀ e k handler filled) :
    handler = .command ∧ k = c := by
  rcases closes with ⟨input, x, source, _, live, reason⟩ | ⟨filled', received', _⟩
  · obtain ⟨input', y, b, contents, piece, source', _, live', reading, into, room, got,
      nonempty, full, _⟩ := received_elim received
    obtain ⟨rfl, rfl⟩ : c = k ∧ input = input' := by simpa using source.symm.trans source'
    obtain rfl := Option.some.inj (live.symm.trans live')
    rcases reason with idle | idle | ⟨b', contents', into', room', short⟩ | rfl | rfl
    · simp [idle] at reading
    · simp [idle] at into
    · obtain rfl := Option.some.inj (into.symm.trans into')
      obtain rfl := Option.some.inj (room.symm.trans room')
      have := List.length_pos_iff.mpr nonempty
      omega
    · cases got
    · simp only [Option.map_some, List.take_nil, Option.some.injEq] at got
      exact absurd got.symm nonempty
  · have same := received'.symm.trans received
    simp only [Option.some.injEq, Prod.mk.injEq] at same
    exact ⟨same.2.1.symm, same.1.symm⟩

theorem Closes.source {c : ClientId} (closes : Closes σ₀ e c) :
    ∃ input, e.happening = .ready c input := by
  rcases closes with ⟨input, _, source, _⟩ | ⟨_, received, _⟩
  · exact ⟨input, source⟩
  · obtain ⟨input, _, _, _, _, source, _⟩ := received_elim received
    exact ⟨input, source⟩

theorem Closes.connected {c : ClientId} (closes : Closes σ₀ e c) : c ∈ σ₀.clients := by
  rcases closes with ⟨_, _, _, connected, _⟩ | ⟨_, received, _⟩
  · exact connected
  · obtain ⟨_, _, _, _, _, _, connected, _⟩ := received_elim received
    exact connected

theorem Closes.unique {c k : ClientId} (closes : Closes σ₀ e c) (closes' : Closes σ₀ e k) :
    c = k := by
  obtain ⟨_, first⟩ := closes.source
  obtain ⟨_, second⟩ := closes'.source
  exact (Happening.ready.inj (first.symm.trans second)).1

/-- The deletion of a client withdraws what the client advertises. -/
theorem Closes.withdraws_iff {c : ClientId} {a : AdvertId} {v : Advert} (closes : Closes σ₀ e c)
    (advert : σ₀.advert a = some v) : Withdraws σ₀ e a ↔ v.client = c := by
  constructor
  · rintro (⟨k, _, filled, received, _⟩ | ⟨w, advert', closes'⟩)
    · exact absurd (closes.received received).1 (by decide)
    · obtain rfl := Option.some.inj (advert.symm.trans advert')
      exact closes'.unique closes
  · rintro rfl
    exact .inr ⟨v, advert, closes⟩

end Switchboard
end Xatmi
