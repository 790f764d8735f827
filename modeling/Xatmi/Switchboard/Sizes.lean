import Xatmi.Switchboard.Handling

/-!
# Sizes

Names of services fill their field, and the data of a transaction has a length that fits an `int`,
so that the two survive being sent.
-/

namespace Xatmi
namespace Switchboard

/-- What has a fixed or a bounded size. -/
structure Sized (σ : State) : Prop where
  name : ∀ s svc, σ.service s = some svc → svc.svcname.length = XATMI_SERVICE_NAME_LENGTH
  data : ∀ t tr contents, σ.tran t = some tr → σ.buf tr.data = some contents →
    contents.length < 2 ^ 31

theorem length_strncpy (name : Bytes) : (strncpy name).length = XATMI_SERVICE_NAME_LENGTH := by
  have short : (cname name).length ≤ XATMI_SERVICE_NAME_LENGTH :=
    ((List.takeWhile_sublist _).length_le).trans (List.length_take_le _ _)
  simp only [strncpy, List.length_append, List.length_replicate]
  omega

namespace Sized

variable {φ φ' : Phase} {σ₀ σ τ : State} {e : Event}

theorem start : Sized .start := by
  constructor <;> simp [State.start]

/-- What gives no transaction other data, and no data another length. -/
theorem keep (inv : Sized σ) (service : ∀ s svc, τ.service s = some svc →
      ∃ old, σ.service s = some old ∧ old.svcname = svc.svcname)
    (tran : ∀ t tr, τ.tran t = some tr → ∃ old, σ.tran t = some old ∧ old.data = tr.data)
    (buf : ∀ t tr contents, σ.tran t = some tr → τ.buf tr.data = some contents →
      ∃ old, σ.buf tr.data = some old ∧ old.length = contents.length) : Sized τ := by
  constructor
  · intro s svc current
    obtain ⟨old, current', same⟩ := service s svc current
    exact same ▸ inv.name s old current'
  · intro t tr contents found room
    obtain ⟨tr', found', same⟩ := tran t tr found
    obtain ⟨old, room', length⟩ := buf t tr' contents found' (same ▸ room)
    exact length ▸ inv.data t tr' old found' room'

theorem effect (inv : Sized σ) (all : Inv ⟨φ, σ⟩) (eff : Effect σ₀ e ⟨φ, σ⟩ ⟨φ', τ⟩) : Sized τ := by
  have sameService : ∀ s svc, σ.service s = some svc →
      ∃ old, σ.service s = some old ∧ old.svcname = svc.svcname :=
        fun _ svc current => ⟨svc, current, rfl⟩
  have sameTran : ∀ t tr, σ.tran t = some tr → ∃ old, σ.tran t = some old ∧ old.data = tr.data :=
    fun _ tr found => ⟨tr, found, rfl⟩
  have sameBuf : ∀ (t : TranId) (tr : Transaction) contents, σ.tran t = some tr →
      σ.buf tr.data = some contents → ∃ old, σ.buf tr.data = some old ∧
      old.length = contents.length :=
    fun _ _ contents _ room => ⟨contents, room, rfl⟩
  have younger : ∀ {t tr}, σ.tran t = some tr → tr.data ≠ σ.next := by
    intro t tr found same
    obtain ⟨contents, room⟩ := all.buffers.data t tr found
    exact absurd (same ▸ all.fresh.buf _ _ room) (Nat.lt_irrefl _)
  have stored : ∀ {b : BufId} {new : Option Bytes}, (∀ contents, new = some contents →
        ∃ old, σ.buf b = some old ∧ old.length = contents.length) →
      ∀ (t : TranId) (tr : Transaction) contents, σ.tran t = some tr →
        put σ.buf b new tr.data = some contents →
        ∃ old, σ.buf tr.data = some old ∧ old.length = contents.length := by
    intro b new same t tr contents _ room
    rcases put_eq_some_iff.mp room with ⟨rfl, rfl⟩ | ⟨_, room⟩
    · exact same contents rfl
    · exact ⟨contents, room, rfl⟩
  have fresh : ∀ {buf : BufId → Option Bytes} {new : Option Bytes},
      (∀ (t : TranId) (tr : Transaction) contents, σ.tran t = some tr →
        buf tr.data = some contents →
        ∃ old, σ.buf tr.data = some old ∧ old.length = contents.length) →
      ∀ (t : TranId) (tr : Transaction) contents, σ.tran t = some tr →
        put buf σ.next new tr.data = some contents →
        ∃ old, σ.buf tr.data = some old ∧ old.length = contents.length := by
    intro buf new same t tr contents found room
    rcases put_eq_some_iff.mp room with ⟨young, _⟩ | ⟨_, room⟩
    · exact absurd young (younger found)
    · exact same t tr contents found room
  have freed : ∀ {b : BufId} (t : TranId) (tr : Transaction) contents, σ.tran t = some tr →
      put σ.buf b none tr.data = some contents →
      ∃ old, σ.buf tr.data = some old ∧ old.length = contents.length := stored (by simp)
  have changed : ∀ {key update} (t : TranId) (tr : Transaction),
      change σ.tran key update t = some tr → (∀ tr, (update tr).data = tr.data) →
      ∃ old, σ.tran t = some old ∧ old.data = tr.data := by
    intro key update t tr found same
    obtain ⟨old, found', rfl⟩ := change_eq_some_iff.mp found
    refine ⟨old, found', ?_⟩
    split
    · exact (same old).symm
    · rfl
  have deleted : ∀ {key} (t : TranId) (tr : Transaction), put σ.tran key none t = some tr →
      ∃ old, σ.tran t = some old ∧ old.data = tr.data :=
    fun t tr found => ⟨tr, (put_none_eq_some_iff.mp found).2, rfl⟩
  have renamed : ∀ {key update} (s : ServiceId) (svc : Service), change σ.service key update
      s = some svc → (∀ svc, (update svc).svcname = svc.svcname) →
      ∃ old, σ.service s = some old ∧ old.svcname = svc.svcname := by
    intro key update s svc current same
    obtain ⟨old, current', rfl⟩ := change_eq_some_iff.mp current
    refine ⟨old, current', ?_⟩
    split
    · exact (same old).symm
    · rfl
  cases eff with
  | connect =>
      refine inv.keep sameService sameTran fun t tr contents found room => ?_
      rcases put_eq_some_iff.mp room with ⟨young, _⟩ | ⟨_, room⟩
      · obtain ⟨old, room'⟩ := all.buffers.data t tr found
        have earlier : tr.data < σ₀.next := all.fresh.buf _ _ room'
        exact absurd (young.trans rfl : tr.data = σ₀.next + 1)
          (earlier.trans (Nat.lt_succ_self _)).ne
      · exact ⟨contents, room, rfl⟩
  | fill _ _ _ room short =>
      refine inv.keep sameService sameTran (stored ?_)
      rintro _ ⟨rfl⟩
      exact ⟨_, room, (length_overwrite (Nat.le_of_lt short)).symm⟩
  | begin _ _ _ _ room length =>
      refine inv.keep sameService sameTran (stored ?_)
      rintro _ ⟨rfl⟩
      exact ⟨_, room, length.symm⟩
  | release => exact inv.keep sameService sameTran freed
  | resize => exact inv.keep sameService sameTran (fresh freed)
  | next => exact inv.keep sameService sameTran (fresh sameBuf)
  | @submit _ _ _ _ _ tr len _ _ _ _ _ _ data _ _ _ _ short =>
      refine ⟨inv.name, fun t tr' contents found room => ?_⟩
      rcases put_eq_some_iff.mp found with ⟨_, new⟩ | ⟨_, found⟩
      · obtain rfl := Option.some.inj new
        have zeros : some (List.replicate len 0) = some contents := (if_pos data).symm.trans room
        rw [← Option.some.inj zeros, List.length_replicate]
        exact short
      · obtain ⟨old, room', length⟩ := fresh sameBuf t tr' contents found room
        exact length ▸ inv.data t tr' old found room'
  | assignUp | assignWork =>
      exact inv.keep sameService (fun t tr found => changed t tr found fun _ => rfl) (fresh sameBuf)
  | replyQueued | replyWaiting =>
      refine inv.keep sameService deleted fun t tr contents found room => ?_
      exact fresh sameBuf t tr contents found (put_none_eq_some_iff.mp room).2
  | @setReturn _ _ _ _ t tr _ data _ _ _ _ _ found _ short =>
      refine ⟨inv.name, fun t' tr' contents found' room => ?_⟩
      rw [State.setReturn_tran] at found'
      obtain ⟨old, current, rfl⟩ := change_eq_some_iff.mp found'
      by_cases same : t' = t
      · rw [if_pos same] at room
        have stored : some data = some contents := (if_pos rfl).symm.trans room
        exact Option.some.inj stored ▸ short
      · rw [if_neg same] at room
        obtain ⟨contents', room', length⟩ := fresh freed t' old contents current room
        exact length ▸ inv.data t' old contents' current room'
  | sweep | purge => exact inv.keep sameService deleted freed
  | found =>
      refine ⟨fun s svc current => ?_, inv.data⟩
      rcases put_eq_some_iff.mp current with ⟨_, same⟩ | ⟨_, current⟩
      · rw [← Option.some.inj same]
        exact length_strncpy _
      · exact inv.name s svc current
  | enqueue | park =>
      exact inv.keep (fun s svc current => renamed s svc current fun _ => rfl) sameTran sameBuf
  | dropService =>
      exact inv.keep (fun s svc current => sameService s svc (put_none_eq_some_iff.mp current).2)
        sameTran sameBuf
  | finish => exact inv.keep sameService (fun t tr found => changed t tr found fun _ => rfl) sameBuf
  | fail => exact inv.keep sameService (fun t tr found => changed t tr found fun _ => rfl) sameBuf
  | _ => exact inv.keep sameService sameTran sameBuf

end Sized

theorem sized_of_reachable {allowed : State → Event → Prop} {σ : State}
    (reach : Reachable allowed σ) :
    Sized σ := by
  refine Reachable.induction (motive := fun κ => Sized κ.state) .start ?_ reach
  rintro σ₀ e ⟨φ, σ⟩ ⟨φ', τ⟩ _ _ _ _ all inv eff
  exact inv.effect all eff

end Switchboard
end Xatmi
