import Xatmi.Switchboard.Delivery
import Xatmi.Switchboard.Faults
import Xatmi.Switchboard.Withdrawal

/-!
# What clients read into

A command and the fixed part of a message are read into a buffer of their own; the data of a request
or of a result is read into the buffer of the transaction. The transaction whose result a worker is
sending belongs to another client, and goes away with it.
-/

namespace Xatmi
namespace Switchboard

open Intrusive Relation

/-! ## Sparing returns -/

/-- The transaction a client executes or waits for. -/
def Client.serves (x : Client) : Option TranId :=
  match x.wait4 with
  | some (.tran t) => some t
  | _ => none

theorem Client.serves_eq_some_iff {x : Client} {t : TranId} :
    x.serves = some t ↔ x.wait4 = some (.tran t) := by
  unfold Client.serves
  split <;> simp_all

instance {α : Type} [DecidableEq α] (links : Links α) (n : α) : Decidable (links.Alone n) :=
  inferInstanceAs (Decidable (_ ∧ _))

/-- While a worker is sending the data of a result, the client that awaits the result is not
deleted, and neither is the service if the transaction is still on its queue. -/
def SparesReturns (σ : State) (e : Event) : Prop :=
  ∀ c ∈ σ.clients, ∀ x ∈ σ.client c, x.handler = some .part2 → ¬Closes σ e c →
    ∀ t ∈ x.serves, ∀ tr ∈ σ.tran t,
      ¬Closes σ e tr.client ∧ (Orphans σ e tr.svc → σ.links.Alone (.tran t))

instance (σ : State) (e : Event) : Decidable (SparesReturns σ e) :=
  inferInstanceAs (Decidable (∀ c ∈ σ.clients, ∀ x ∈ σ.client c, x.handler = some .part2 →
    ¬Closes σ e c → ∀ t ∈ x.serves, ∀ tr ∈ σ.tran t,
      ¬Closes σ e tr.client ∧ (Orphans σ e tr.svc → σ.links.Alone (.tran t))))

/-- No transaction is handed out twice, and none is deleted while its result arrives. -/
def KeepsReturns (σ : State) (e : Event) : Prop :=
  PicksNew σ e ∧ SparesReturns σ e

instance (σ : State) (e : Event) : Decidable (KeepsReturns σ e) :=
  inferInstanceAs (Decidable (_ ∧ _))

/-! ## Events that delete -/

/-- The event makes the switchboard delete a client or an advertisement. -/
def Deletes (σ : State) (e : Event) : Prop :=
  (∃ c, Closes σ e c) ∨ ∃ c a, Unadvertises σ e c a

variable {σ₀ : State} {e : Event} {φ φ' : Phase} {σ τ : State}

theorem not_deletes_of_return {c : ClientId} {filled : Bytes}
    (received : Received σ₀ e c .svrreturn filled) : ¬Deletes σ₀ e := by
  rintro (⟨k, closes⟩ | ⟨k, a, filled', received', _⟩)
  · cases (closes.received received).1
  · cases received.symm.trans received'

/-- An advertisement is taken away from a client that is being deleted, or by `TPTUADV`. -/
theorem det_of_trace {κ : Conf} (trace : Trace σ₀ e ⟨{}, σ₀⟩ κ) {a : AdvertId}
    (det : κ.phase.det = some a) :
    (∃ c, κ.phase.closing = some c) ∨ ∃ c a, Unadvertises σ₀ e c a := by
  induction trace with
  | refl => cases det
  | tail _ eff ih =>
      cases eff with
      | connect | fill | begin | dropAdvert | close | done => cases det
      | detach _ _ _ _ reason =>
          rcases reason with ⟨closing, _⟩ | ⟨_, unadvertises, _⟩
          · exact .inl ⟨_, closing⟩
          · exact .inr ⟨_, _, unadvertises⟩
      | dropClient _ noDet => simp [noDet] at det
      | _ => exact ih det

/-- A transaction that is finished was returned, or its worker is being deleted. -/
theorem fin_of_trace {κ : Conf} (trace : Trace σ₀ e ⟨{}, σ₀⟩ κ) {t : TranId}
    (fin : κ.phase.fin = some t) :
    (∃ k, κ.phase.closing = some k) ∨ ∃ k, Returns σ₀ e k := by
  induction trace with
  | refl => cases fin
  | tail _ eff ih =>
      cases eff with
      | connect | fill | begin | close | replyWaiting | requeue | done => cases fin
      | finish _ _ _ _ _ asked => exact .inr ⟨_, asked⟩
      | fail closing => exact .inl ⟨_, closing⟩
      | dropClient _ _ noFin => cases noFin.symm.trans fin
      | _ => exact ih fin

/-! ## What an effect does to a client -/

/-- What an effect has left of client `c`. -/
inductive Outcome (σ₀ : State) (e : Event) (φ φ' : Phase) (σ τ : State) (c : ClientId)
    (y : Client) :
    Prop
  /-- What is being read is the same, and so is the transaction executed, unless that is over. -/
  | kept {x : Client} (live : σ.client c = some x) (intake : y.intake = x.intake)
      (wait : x.handler ≠ none → φ.run ≠ some c → φ.closing ≠ some c → ∀ t,
        x.wait4 = some (.tran t) → τ.tran t ≠ none → y.wait4 = some (.tran t))
  /-- Nothing was read, and now a command, a fixed part or the data of a request is. -/
  | armed (idle : ∀ x, σ.client c = some x → x.Idle) (fixed : y.handler ≠ some .part2)
  /-- The event has brought input. -/
  | input {x : Client} (live : σ.client c = some x) (source : ∃ input, e.happening = .ready c input)
      (quiet : φ = {}) (partly : y.handler = x.handler ∧ y.input = x.input ∧
          (∀ t, x.wait4 = some (.tran t) → τ.tran t ≠ none → y.wait4 = some (.tran t)) ∨
        y.handler = none)
  /-- Nothing was read, and now the data of a result is. -/
  | returning {x : Client} {t : TranId} {tr : Transaction} {filled : Bytes}
      (live : σ.client c = some x) (idle : x.Idle) (received : Received σ₀ e c .svrreturn filled)
      (stopped : φ'.run = none) (serves : y.wait4 = some (.tran t)) (found : τ.tran t = some tr)
      (into : y.input = some tr.data)

namespace Outcome

variable {c : ClientId} {y : Client}

theorem of_eq (live : σ.client c = some y) : Outcome σ₀ e φ φ' σ τ c y :=
  .kept live rfl fun _ _ _ _ serves _ => serves

theorem of_change {k : ClientId} {update : Client → Client}
    (live : change σ.client k update c = some y) (intake : ∀ x, (update x).intake = x.intake)
    (wait : φ.run = some k ∨ φ.closing = some k ∨ ∀ x, (update x).wait4 = x.wait4) :
    Outcome σ₀ e φ φ' σ τ c y := by
  obtain ⟨x, live', rfl⟩ := change_eq_some_iff.mp live
  by_cases same : c = k
  · subst same
    rw [if_pos rfl]
    refine .kept live' (intake x) fun _ stopped stays t serves _ => ?_
    rcases wait with running | closing | keeps
    · exact absurd running stopped
    · exact absurd closing stays
    · rw [keeps, serves]
  · rw [if_neg same]
    exact of_eq live'

theorem of_arm {k : ClientId} {update : Client → Client}
    (live : change σ.client k update c = some y) (idle : ∀ x, σ.client k = some x → x.Idle)
    (fixed : ∀ x, (update x).handler ≠ some .part2) :
    Outcome σ₀ e φ φ' σ τ c y := by
  obtain ⟨x, live', rfl⟩ := change_eq_some_iff.mp live
  by_cases same : c = k
  · subst same
    rw [if_pos rfl]
    exact .armed idle (fixed x)
  · rw [if_neg same]
    exact of_eq live'

theorem of_bereave {t : TranId} {tr : Transaction} {ρ : State} {x : Client}
    (deleted : τ.tran t = none) (outcome : Outcome σ₀ e φ φ' σ τ c x) :
    Outcome σ₀ e φ φ' σ τ c (ρ.bereave t tr c x) := by
  have other : ∀ {t'}, τ.tran t' ≠ none → x.wait4 = some (.tran t') →
      (ρ.bereave t tr c x).wait4 = some (.tran t') := by
    intro t' current serves
    have different : t' ≠ t := fun same => current (same ▸ deleted)
    simp [State.bereave, serves, different]
  cases outcome with
  | kept live intake wait =>
      refine .kept live intake fun reading stopped stays t' serves current => ?_
      exact other current (wait reading stopped stays t' serves current)
  | armed idle fixed => exact .armed idle fixed
  | input live source quiet partly =>
      refine .input live source quiet (partly.imp_left ?_)
      rintro ⟨handler, into, wait⟩
      exact ⟨handler, into, fun t' serves current => other current (wait t' serves current)⟩
  | returning live idle received stopped serves found into =>
      exact .returning live idle received stopped (other (by simp [found]) serves) found into

theorem of_reply {t : TranId} {tr : Transaction} {contents : Bytes} (deleted : τ.tran t = none)
    (idle : ∀ x, σ.client tr.client = some x → x.Idle)
    (live : (σ.reply t tr contents).client c = some y) : Outcome σ₀ e φ φ' σ τ c y := by
  obtain ⟨x, answered, rfl⟩ := Option.map_eq_some_iff.mp live
  refine of_bereave deleted (of_arm ((congrFun (change_change _ _ _ _) c).symm.trans answered) idle
    ?_)
  simp

theorem of_effect (all : Inv ⟨φ, σ⟩) (eff : Effect σ₀ e ⟨φ, σ⟩ ⟨φ', τ⟩)
    (live : τ.client c = some y) : Outcome σ₀ e φ φ' σ τ c y := by
  have only : ∀ {k x}, σ.client k = some x → x.Idle → ∀ z, σ.client k = some z → z.Idle := by
    intro k x live idle z live'
    obtain rfl := Option.some.inj (live.symm.trans live')
    exact idle
  cases eff with
  | connect =>
      obtain ⟨x, added, rfl⟩ := change_eq_some_iff.mp live
      rcases put_eq_some_iff.mp added with ⟨rfl, _⟩ | ⟨old, live'⟩
      · have absent : σ₀.client σ₀.next = none := all.fresh.client_next all.registry
        exact .armed (by simp [absent]) (by simp)
      · rw [if_neg old]
        exact of_eq live'
  | fill _ _ _ _ _ source =>
      obtain ⟨x, live', rfl⟩ := change_eq_some_iff.mp live
      split
      · rename_i same
        subst same
        exact .input live' source rfl (.inl ⟨rfl, rfl, fun _ serves _ => serves⟩)
      · exact of_eq live'
  | begin received =>
      obtain ⟨input, _, _, _, _, source, _⟩ := received_elim received
      obtain ⟨x, live', rfl⟩ := change_eq_some_iff.mp live
      split
      · rename_i same
        subst same
        exact .input live' ⟨input, source⟩ rfl (.inr rfl)
      · exact of_eq live'
  | armHeader _ _ live' idle _ _ fixed =>
      refine of_arm live (only live' idle) ?_
      rintro _ same
      simp [Option.some.inj same, Handler.ownsData] at fixed
  | next _ live' idle | armUpload _ _ live' idle => exact of_arm live (only live' idle) (by simp)
  | submit | requeue | offer | detach =>
      exact of_change live (fun _ => rfl) (.inr (.inr fun _ => rfl))
  | block running => exact of_change live (fun _ => rfl) (.inl running)
  | finish running => exact of_change live (fun _ => rfl) (.inl running)
  | fail closing => exact of_change live (fun _ => rfl) (.inr (.inl closing))
  | assignUp _ _ _ _ _ _ _ worker idle =>
      exact of_arm ((congrFun (change_change _ _ _ _) c).symm.trans live) (only worker idle)
        (by simp)
  | assignWork _ _ _ _ _ _ _ _ _ worker idle =>
      exact of_arm ((congrFun (change_change _ _ _ _) c).symm.trans live) (only worker idle)
        (by simp)
  | replyQueued _ _ _ _ owner idle =>
      exact of_reply (by simp [State.reply, State.delTran, put]) (only owner idle) live
  | replyWaiting _ owner idle =>
      exact of_reply (by simp [State.reply, State.delTran, put]) (only owner idle) live
  | sweep | purge =>
      obtain ⟨x, live', rfl⟩ := Option.map_eq_some_iff.mp live
      exact of_bereave (by simp [State.delTran, put]) (of_eq live')
  | armReturn _ worker idle serves found _ _ asked =>
      obtain ⟨filled, received⟩ := asked
      obtain ⟨x, live', rfl⟩ := change_eq_some_iff.mp live
      split
      · rename_i same
        subst same
        obtain rfl := Option.some.inj (worker.symm.trans live')
        exact .returning live' idle received rfl serves found rfl
      · exact of_eq live'
  | dropClient => exact of_eq (put_none_eq_some_iff.mp live).2
  | _ => exact of_eq live

end Outcome

theorem run_of_effect (eff : Effect σ₀ e ⟨φ, σ⟩ ⟨φ', τ⟩) {c : ClientId} {y : Client}
    (run : φ'.run = some c) (live : τ.client c = some y) : φ.run = some c ∨ y.handler = none := by
  cases eff with
  | begin =>
      obtain rfl := Option.some.inj run
      obtain ⟨x, _, rfl⟩ := change_eq_some_iff.mp live
      exact .inr (by simp)
  | connect | fill | armHeader | armUpload | rest | block | armReturn | close | done => cases run
  | _ => exact .inl run

/-- A client that is still there and not being deleted was not being deleted before. -/
theorem closing_of_effect (eff : Effect σ₀ e ⟨φ, σ⟩ ⟨φ', τ⟩) {c : ClientId} {y : Client}
    (live : τ.client c = some y) (stays : φ'.closing ≠ some c) : φ.closing ≠ some c := by
  cases eff with
  | connect | fill | begin => simp
  | close _ quiet => rcases quiet with rfl | rfl <;> simp
  | done quiet => rcases quiet with rfl | ⟨_, rfl⟩ | ⟨_, rfl⟩ <;> simp
  | dropClient closing =>
      rw [closing]
      exact fun same => (put_none_eq_some_iff.mp live).1 (Option.some.inj same).symm
  | _ => exact stays

/-- A buffer keeps its contents, unless the running handler has it, the event brings input for a
client that reads into it, or it is taken from a transaction. -/
theorem buf_of_effect (all : Inv ⟨φ, σ⟩) (eff : Effect σ₀ e ⟨φ, σ⟩ ⟨φ', τ⟩) {b : BufId}
    {contents : Bytes} (room : σ.buf b = some contents) :
    τ.buf b = some contents ∨ φ.held = some b ∨
      (∃ k x input, e.happening = .ready k input ∧ φ = {} ∧ σ.client k = some x ∧
      x.input = some b) ∨
      ∃ t tr, σ.tran t = some tr ∧ tr.data = b ∧ ∀ tr', τ.tran t = some tr' → tr'.data ≠ b := by
  have old : b < σ.next := all.fresh.buf b contents room
  have alloc : ∀ {buf : BufId → Option Bytes} {key} {value : Option Bytes}, buf b = some contents →
      σ.next ≤ key → put buf key value b = some contents := by
    intro buf key value room' new
    exact put_eq_some_iff.mpr (.inr ⟨(old.trans_le new).ne, room'⟩)
  have freed : ∀ {buf : BufId → Option Bytes} (key : BufId), buf b = some contents →
      put buf key none b = some contents ∨ key = b := by
    intro buf key room'
    by_cases same : key = b
    · exact .inr same
    · exact .inl (put_none_eq_some_iff.mpr ⟨Ne.symm same, room'⟩)
  have gone : ∀ {t} {links : TranId → Option Transaction} {tr' : Transaction},
      put links t none t = some tr' → tr'.data ≠ b :=
    fun found => absurd rfl (put_none_eq_some_iff.mp found).1
  cases eff with
  | connect => exact .inl (alloc room (Nat.le_succ _))
  | @fill _ c x _ b' _ _ live into _ _ _ source =>
      obtain ⟨input, source⟩ := source
      by_cases same : b = b'
      · exact .inr (.inr (.inl ⟨c, x, input, source, rfl, live, same ▸ into⟩))
      · exact .inl (put_eq_some_iff.mpr (.inr ⟨same, room⟩))
  | @begin _ c x _ b' _ _ received live into =>
      obtain ⟨input, _, _, _, _, source, _⟩ := received_elim received
      by_cases same : b = b'
      · exact .inr (.inr (.inl ⟨c, x, input, source, rfl, live, same ▸ into⟩))
      · exact .inl (put_eq_some_iff.mpr (.inr ⟨same, room⟩))
  | release held =>
      rcases freed _ room with kept | same
      · exact .inl kept
      · exact .inr (.inl (same ▸ held))
  | resize held =>
      rcases freed _ room with kept | same
      · exact .inl (alloc kept (Nat.le_refl _))
      · exact .inr (.inl (same ▸ held))
  | next => exact .inl (alloc room (Nat.le_refl _))
  | submit => exact .inl (alloc room (Nat.le_refl _))
  | assignUp | assignWork => exact .inl (alloc room (Nat.le_refl _))
  | replyQueued _ _ _ _ _ _ deletable | replyWaiting _ _ _ _ deletable =>
      rcases freed _ (alloc room (Nat.le_refl _)) with kept | same
      · exact .inl kept
      · exact .inr (.inr (.inr ⟨_, _, deletable.live, same, fun _ => gone⟩))
  | sweep _ _ _ _ deletable | purge _ _ _ _ _ _ _ deletable =>
      rcases freed _ room with kept | same
      · exact .inl kept
      · exact .inr (.inr (.inr ⟨_, _, deletable.live, same, fun _ => gone⟩))
  | setReturn _ _ _ found =>
      rcases freed _ room with kept | same
      · exact .inl (alloc kept (Nat.le_refl _))
      · refine .inr (.inr (.inr ⟨_, _, found, same, fun tr' found' => ?_⟩))
        rw [State.setReturn_tran] at found'
        obtain ⟨_, _, rfl⟩ := change_eq_some_iff.mp found'
        rw [if_pos rfl]
        exact old.ne'
  | _ => exact .inl room

/-! ## Answered transactions -/

/-- No worker executes a transaction that is among the replies. -/
def Answered (σ : State) : Prop :=
  ∀ k z t, σ.client k = some z → t ∈ z.replies → ∀ c x a, σ.client c = some x →
    x.wait4 = some (.tran t) → .dispatched a c t ∉ σ.log

namespace Answered

theorem mono (inv : Answered σ)
    (replies : ∀ k z t, τ.client k = some z → t ∈ z.replies →
      ∃ z', σ.client k = some z' ∧ t ∈ z'.replies)
    (wait : ∀ c x t, τ.client c = some x → x.wait4 = some (.tran t) →
      ∃ x', σ.client c = some x' ∧ x'.wait4 = some (.tran t))
    (log : ∀ a c t, .dispatched a c t ∈ τ.log → .dispatched a c t ∈ σ.log) : Answered τ := by
  intro k z t live member c x a live' serves seen
  obtain ⟨z', before, member'⟩ := replies k z t live member
  obtain ⟨x', before', serves'⟩ := wait c x t live' serves
  exact inv k z' t before member' c x' a before' serves' (log a c t seen)

theorem of_eq (inv : Answered σ) (client : τ.client = σ.client)
    (log : ∀ a c t, .dispatched a c t ∈ τ.log → .dispatched a c t ∈ σ.log) : Answered τ :=
  inv.mono (fun _ z _ live member => ⟨z, client ▸ live, member⟩)
    (fun _ x _ live serves => ⟨x, client ▸ live, serves⟩) log

theorem of_change (inv : Answered σ) {k : ClientId} {update : Client → Client}
    (client : τ.client = change σ.client k update) (replies : ∀ x, (update x).replies = x.replies)
    (wait : ∀ x t, (update x).wait4 = some (.tran t) → x.wait4 = some (.tran t))
    (log : ∀ a c t, .dispatched a c t ∈ τ.log → .dispatched a c t ∈ σ.log) : Answered τ := by
  refine inv.mono ?_ ?_ log
  · intro c z t live member
    rw [client] at live
    obtain ⟨x, live', rfl⟩ := change_eq_some_iff.mp live
    refine ⟨x, live', ?_⟩
    split at member
    · exact replies x ▸ member
    · exact member
  · intro c z t live serves
    rw [client] at live
    obtain ⟨x, live', rfl⟩ := change_eq_some_iff.mp live
    refine ⟨x, live', ?_⟩
    split at serves
    · exact wait x t serves
    · exact serves

theorem delTran (inv : Answered σ) (t : TranId) (tr : Transaction) : Answered (σ.delTran t tr) := by
  refine inv.mono ?_ ?_ (fun _ _ _ => id)
  · intro c z t' live member
    obtain ⟨x, live', rfl⟩ := Option.map_eq_some_iff.mp live
    refine ⟨x, live', ?_⟩
    simp only [State.bereave] at member
    split at member
    · exact List.mem_of_mem_erase member
    · exact member
  · intro c z t' live serves
    obtain ⟨x, live', rfl⟩ := Option.map_eq_some_iff.mp live
    refine ⟨x, live', ?_⟩
    simp only [State.bereave] at serves
    split at serves
    · cases serves
    · exact serves

theorem reply (inv : Answered σ) (t : TranId) (tr : Transaction) (contents : Bytes) :
    Answered (σ.reply t tr contents) := by
  apply delTran
  exact inv.of_change (change_change _ _ _ _) (fun _ => rfl) (by simp) (fun _ _ _ => id)

/-- The worker is given a transaction that nobody had. -/
theorem assign (inv : Answered σ) {a : AdvertId} {v : Advert} {t : TranId} {frame : Bytes}
    (replied : ∀ c x t, σ.client c = some x → t ∈ x.replies → σ.Dispatched t)
    (new : ¬σ.Dispatched t) : Answered (σ.assign a v t frame) := by
  have client : (σ.assign a v t frame).client = change σ.client v.client _ := change_change _ _ _ _
  have log : (σ.assign a v t frame).log = .dispatched a v.client t :: σ.log := rfl
  intro k z t' live member c x b live' serves seen
  rw [client] at live live'
  obtain ⟨z', before, rfl⟩ := change_eq_some_iff.mp live
  have member' : t' ∈ z'.replies := by
    split at member <;> exact member
  have different : t' ≠ t := fun same => new (same ▸ replied k z' t' before member')
  obtain ⟨x', before', rfl⟩ := change_eq_some_iff.mp live'
  rw [log, List.mem_cons] at seen
  split at serves
  · exact different (Wait.tran.inj (Option.some.inj serves)).symm
  · rcases seen with same | seen
    · exact different (Obs.dispatched.inj same).2.2
    · exact inv k z' t' before member' c x' b before' serves seen

theorem effect (inv : Answered σ) (sound : Sound ⟨φ, σ⟩) (new : PicksNew σ₀ e)
    (eff : Effect σ₀ e ⟨φ, σ⟩ ⟨φ', τ⟩) : Answered τ := by
  have own : Ownership σ := sound.all.own
  have dispatches : Dispatches φ σ := sound.all.dispatches
  have parking : Parking φ σ := sound.parking
  have dismissed : ∀ adverts, Answered (σ.dismiss adverts) :=
    fun _ => inv.of_eq rfl fun _ _ _ => id
  cases eff with
  | connect =>
      have added : Answered σ₀.addClient := by
        refine inv.mono ?_ ?_ fun _ _ _ => id
        · intro k z t live member
          rcases put_eq_some_iff.mp live with ⟨_, made⟩ | ⟨_, before⟩
          · simp [← Option.some.inj made] at member
          · exact ⟨z, before, member⟩
        · intro k z t live serves
          rcases put_eq_some_iff.mp live with ⟨_, made⟩ | ⟨_, before⟩
          · simp [← Option.some.inj made] at serves
          · exact ⟨z, before, serves⟩
      exact added.of_change rfl (fun _ => rfl) (fun _ _ => id) fun _ _ _ => id
  | fill | armHeader | next | submit | armUpload | armReturn | offer | detach =>
      exact inv.of_change rfl (fun _ => rfl) (fun _ _ => id) (fun _ _ _ => id)
  | begin =>
      refine inv.of_change rfl (fun _ => rfl) (fun _ _ => id) ?_
      simp [State.begin, State.observe, State.mapClient]
  | call =>
      refine inv.of_eq rfl ?_
      simp [State.observe]
  | finish | fail => exact inv.of_change rfl (fun _ => rfl) (by simp) (fun _ _ _ => id)
  | assignUp up =>
      obtain ⟨_, _, uploading, _⟩ := dispatches.uploaded _ up
      exact (dismissed _).assign dispatches.replied uploading.new
  | assignWork _ asked picks _ _ _ _ _ _ _ _ _ _ _ _ fresh =>
      refine (dismissed _).assign dispatches.replied ?_
      rintro ⟨b, k, seen⟩
      exact new.undispatched asked picks ⟨b, k, fresh b k _ seen⟩
  | @block _ _ k₀ x₀ w _ live₀ _ _ awaited =>
      intro k z t live member c x a live' serves seen
      obtain ⟨z, before, rfl⟩ := change_eq_some_iff.mp live
      have member' : t ∈ z.replies := by
        split at member <;> exact member
      obtain ⟨x, before', rfl⟩ := change_eq_some_iff.mp live'
      split at serves
      · rcases awaited with ⟨rfl, _⟩ | ⟨t', rfl, request⟩
        · cases serves
        · obtain rfl := Wait.tran.inj (Option.some.inj serves)
          obtain ⟨tr, found, owner⟩ := own.mine k₀ x₀ t' live₀ (List.mem_append_left _ request)
          obtain rfl := owner.symm.trans (own.owner_eq before (List.mem_append_right _ member')
            found)
          obtain rfl := Option.some.inj (live₀.symm.trans before)
          exact (List.nodup_append.mp (own.nodup _ x₀ live₀)).2.2 t' request t' member' rfl
      · exact inv k z t before member' c x a before' serves seen
  | @requeue _ _ y t₀ tr fin =>
      intro k z t live member c x a live' serves seen
      obtain ⟨z, before, rfl⟩ := change_eq_some_iff.mp live
      obtain ⟨x, before', rfl⟩ := change_eq_some_iff.mp live'
      have serves' : x.wait4 = some (.tran t) := by
        split at serves <;> exact serves
      have earlier : t = t₀ ∨ t ∈ z.replies := by
        split at member
        · rcases List.mem_append.mp member with old | new
          · exact .inr (List.mem_of_mem_erase old)
          · exact .inl (List.mem_singleton.mp new)
        · exact .inr member
      rcases earlier with rfl | member'
      · exact parking.finished t c x a fin before' serves' seen
      · exact inv k z t before member' c x a before' serves' seen
  | replyQueued | replyWaiting => exact inv.reply _ _ _
  | sweep | purge => exact inv.delTran _ _
  | dropClient =>
      exact inv.mono (fun _ z _ live member => ⟨z, (put_none_eq_some_iff.mp live).2, member⟩)
        (fun _ x _ live serves => ⟨x, (put_none_eq_some_iff.mp live).2, serves⟩) fun _ _ _ => id
  | _ => exact inv.of_eq rfl fun _ _ _ => id

end Answered

theorem answered_of_reachable (reach : Reachable PicksNew σ) : Answered σ := by
  refine Reachable.induction (motive := fun κ => Answered κ.state) (by simp [Answered, State.start])
    ?_ reach
  rintro σ₀ e ⟨φ, σ⟩ ⟨φ', τ⟩ reach new _ trace _ answered eff
  have sound := sound_of_reachable reach
  exact answered.effect (sound.trace sound.parking new trace) new eff

/-! ## Borrowed buffers -/

/-- Client `c` reads into the data of transaction `t`, which it uploads or returns. -/
structure State.Borrows (σ : State) (c : ClientId) (x : Client) (t : TranId) (tr : Transaction) :
    Prop where
  found : σ.tran t = some tr
  into : x.input = some tr.data
  purpose : x.handler = some .sendToWorker ∧ tr.client = c ∨
    x.handler = some .part2 ∧ x.wait4 = some (.tran t)

/-- A client that reads into a buffer reads a command or a fixed part, or borrows. -/
theorem reads_or_borrows (all : Inv ⟨φ, σ⟩) {c : ClientId} {x : Client} {b : BufId}
    (live : σ.client c = some x) (stays : φ.closing ≠ some c) (into : x.input = some b)
    (returns : x.handler = some .part2 → ∃ t tr, σ.Borrows c x t tr) :
    x.Reads b ∨ ∃ t tr, σ.Borrows c x t tr := by
  cases reading : x.handler with
  | none =>
      have idle := (all.readers c x live).idle reading
      simp [idle.2.1] at into
  | some handler =>
      cases owns : handler.ownsData with
      | false => exact .inl ⟨into, handler, reading, owns⟩
      | true =>
          right
          cases handler with
          | sendToWorker =>
              obtain ⟨t, tr, uploading, owner, into'⟩ :=
                all.dispatches.upload c x live reading stays
              exact ⟨t, tr, uploading.found, into', .inl ⟨reading, owner⟩⟩
          | part2 => exact returns reading
          | _ => cases owns

/-- The event deletes transaction `t` only together with client `c`. -/
def Spared (σ₀ : State) (e : Event) (σ : State) (c : ClientId) (t : TranId) (tr : Transaction) :
    Prop :=
  Deletes σ₀ e → ¬Closes σ₀ e c →
    ¬Closes σ₀ e tr.client ∧ (Orphans σ₀ e tr.svc → σ.links.Alone (.tran t))

/-- A worker that is sending a result borrows the data of its transaction, which is spared. -/
structure Lending (σ₀ : State) (e : Event) (φ : Phase) (σ : State) : Prop where
  returns : ∀ c x, σ.client c = some x → x.handler = some .part2 → φ.closing ≠ some c →
    ∃ t tr, σ.Borrows c x t tr ∧ Spared σ₀ e σ c t tr
  stopped : ∀ c x, σ.client c = some x → φ.run = some c → x.handler ≠ some .part2
  answered : Answered σ

namespace Lending

variable {c k : ClientId} {x y : Client} {b : BufId} {t : TranId} {tr : Transaction}

/-- A client that borrows uploads a transaction that nobody knows of, or returns one that was
dispatched to it. -/
theorem purpose (lending : Lending σ₀ e φ σ) (all : Inv ⟨φ, σ⟩) (live : σ.client c = some x)
    (stays : φ.closing ≠ some c) (borrows : σ.Borrows c x t tr) :
    tr.client = c ∧ σ.Uploading t tr x ∨ x.handler = some .part2 ∧ x.wait4 = some (.tran t) ∧
      (∃ a, .dispatched a c t ∈ σ.log) ∧ Spared σ₀ e σ c t tr := by
  obtain ⟨found, into, ⟨reading, owner⟩ | ⟨reading, serves⟩⟩ := borrows
  · obtain ⟨t', tr', uploading, _, into'⟩ := all.dispatches.upload c x live reading stays
    have data : tr.data = tr'.data := Option.some.inj (into.symm.trans into')
    obtain rfl := all.buffers.apart t t' tr tr' found uploading.found data
    obtain rfl := Option.some.inj (found.symm.trans uploading.found)
    exact .inl ⟨owner, uploading⟩
  · obtain ⟨t', tr', borrows', spared⟩ := lending.returns c x live reading stays
    have data : tr.data = tr'.data := Option.some.inj (into.symm.trans borrows'.into)
    obtain rfl := all.buffers.apart t t' tr tr' found borrows'.found data
    obtain rfl := Option.some.inj (found.symm.trans borrows'.found)
    exact .inr ⟨reading, serves, (all.dispatches.active c x live (.inl (by simp [reading]))).2 t
      serves, spared⟩

/-- Nobody else executes, finishes or answers a transaction that a client borrows, and it is deleted
only together with that client. -/
theorem kept (lending : Lending σ₀ e φ σ) (sound : Sound ⟨φ, σ⟩) (start : Inv ⟨{}, σ₀⟩)
    (trace : Trace σ₀ e ⟨{}, σ₀⟩ ⟨φ, σ⟩) (eff : Effect σ₀ e ⟨φ, σ⟩ ⟨φ', τ⟩)
    (live : σ.client c = some x) (stays : φ.closing ≠ some c) (borrows : σ.Borrows c x t tr) :
    ∃ tr', τ.tran t = some tr' ∧ tr'.client = tr.client ∧ tr'.svc = tr.svc ∧
      tr'.data = tr.data := by
  have found : σ.tran t = some tr := borrows.found
  have dispatches : Dispatches φ σ := sound.all.dispatches
  have purpose := lending.purpose sound.all live stays borrows
  have changed : ∀ {key update}, (∀ old : Transaction, (update old).client = old.client ∧
      (update old).svc = old.svc ∧ (t = key → (update old).data = old.data)) →
      ∃ tr', change σ.tran key update t = some tr' ∧ tr'.client = tr.client ∧ tr'.svc = tr.svc ∧
        tr'.data = tr.data := by
    intro key update same
    refine ⟨_, change_eq_some_iff.mpr ⟨tr, found, rfl⟩, ?_⟩
    split
    · rename_i here
      exact ⟨(same tr).1, (same tr).2.1, (same tr).2.2 here⟩
    · exact ⟨rfl, rfl, rfl⟩
  have deleted : ∀ {key}, t ≠ key → ∃ tr', put σ.tran key none t = some tr' ∧
      tr'.client = tr.client ∧ tr'.svc = tr.svc ∧ tr'.data = tr.data :=
    fun different => ⟨tr, put_none_eq_some_iff.mpr ⟨different, found⟩, rfl, rfl, rfl⟩
  have closes : ∀ {k}, φ.closing = some k → Closes σ₀ e k ∧ ¬Closes σ₀ e c := by
    intro k closing
    have closes := closes_of_trace trace closing
    refine ⟨closes, fun closes' => stays ?_⟩
    rw [closing, closes.unique closes']
  cases eff with
  | submit =>
      refine ⟨tr, put_eq_some_iff.mpr (.inr ⟨?_, found⟩), rfl, rfl, rfl⟩
      have old := (sound.all.waits.old (.tran t) (Option.isSome_of_eq_some found)).1
      exact (old.trans (Nat.lt_succ_self _)).ne
  | assignUp | assignWork | finish => exact changed fun _ => ⟨rfl, rfl, fun _ => rfl⟩
  | fail => exact changed fun _ => ⟨rfl, rfl, fun _ => rfl⟩
  | @setReturn _ _ k y _ _ _ _ _ _ running worker serves' =>
      rw [State.setReturn_tran]
      refine changed fun _ => ⟨rfl, rfl, ?_⟩
      rintro rfl
      obtain ⟨a', seen'⟩ := (dispatches.active k y worker (.inr running)).2 t serves'
      rcases purpose with ⟨_, uploading⟩ | ⟨reading, _, ⟨a, seen⟩, _⟩
      · exact absurd ⟨a', k, seen'⟩ uploading.new
      · obtain ⟨_, rfl⟩ := worker_unique sound.parking.once seen seen'
        exact absurd reading (lending.stopped c x live running)
  | replyQueued _ _ live' queued =>
      apply deleted
      rintro rfl
      rcases purpose with ⟨_, uploading⟩ | ⟨_, serves, ⟨a, seen⟩, _⟩
      · exact uploading.new (dispatches.replied _ _ t live' queued)
      · exact lending.answered _ _ t live' queued c x a live serves seen
  | replyWaiting fin =>
      apply deleted
      rintro rfl
      rcases purpose with ⟨_, uploading⟩ | ⟨_, serves, ⟨a, seen⟩, _⟩
      · exact uploading.new (dispatches.finished t fin)
      · exact sound.parking.finished t c x a fin live serves seen
  | sweep orphan queued nonempty first =>
      apply deleted
      rintro rfl
      obtain ⟨svc, service, _⟩ := queued
      obtain ⟨at_, linked⟩ := sound.rings.first_entry service nonempty
      rw [first] at at_ linked
      obtain rfl := Node.head.inj (Option.some.inj ((State.home_tran found).symm.trans at_))
      rcases purpose with ⟨_, uploading⟩ | ⟨_, _, _, spared⟩
      · exact linked uploading.alone
      · obtain ⟨a, det⟩ := sound.all.phases.orphan _ orphan
        have ⟨deletes, remains⟩ : Deletes σ₀ e ∧ ¬Closes σ₀ e c := by
          rcases det_of_trace trace det with ⟨k, closing⟩ | ⟨k, a', filled, received, same⟩
          · exact ⟨.inl ⟨k, (closes closing).1⟩, (closes closing).2⟩
          · refine ⟨.inr ⟨k, a', filled, received, same⟩, fun closes' => ?_⟩
            cases (closes'.received received).1
        exact linked ((spared deletes remains).2 (orphans_of_trace start trace orphan))
  | @purge _ _ k _ _ _ closing _ _ _ live' _ mine =>
      apply deleted
      rintro rfl
      have owner : tr.client = k :=
        sound.all.own.owner_eq live' (List.mem_append.mpr mine) found
      rcases purpose with ⟨mine', _⟩ | ⟨_, _, _, spared⟩
      · rw [← mine', owner] at stays
        exact stays closing
      · have ⟨closes', remains⟩ := closes closing
        exact (spared (.inl ⟨k, closes'⟩) remains).1 (owner ▸ closes')
  | _ => exact ⟨tr, found, rfl, rfl, rfl⟩

theorem effect (lending : Lending σ₀ e φ σ) (sound : Sound ⟨φ, σ⟩) (start : Inv ⟨{}, σ₀⟩)
    (new : PicksNew σ₀ e) (trace : Trace σ₀ e ⟨{}, σ₀⟩ ⟨φ, σ⟩)
    (eff : Effect σ₀ e ⟨φ, σ⟩ ⟨φ', τ⟩) : Lending σ₀ e φ' τ := by
  have all : Inv ⟨φ, σ⟩ := sound.all
  refine ⟨?_, ?_, lending.answered.effect sound new eff⟩
  · intro c y live reading stays'
    have stays := closing_of_effect eff live stays'
    have continues : ∀ {x}, σ.client c = some x → y.handler = x.handler → y.input = x.input →
        (∀ t, x.wait4 = some (.tran t) → τ.tran t ≠ none → y.wait4 = some (.tran t)) →
        ∃ t tr, τ.Borrows c y t tr ∧ Spared σ₀ e τ c t tr := by
      intro x live₀ handler input wait
      have reading₀ : x.handler = some .part2 := handler ▸ reading
      obtain ⟨t, tr, borrows, spared⟩ := lending.returns c x live₀ reading₀ stays
      obtain ⟨tr', found, client, svc, data⟩ :=
        lending.kept sound start trace eff live₀ stays borrows
      have serves : x.wait4 = some (.tran t) := by
        rcases borrows.purpose with ⟨upload, _⟩ | ⟨_, serves⟩
        · simp [reading₀] at upload
        · exact serves
      have dispatched : σ.Dispatched t := by
        obtain ⟨a, seen⟩ := (all.dispatches.active c x live₀ (.inl (by simp [reading₀]))).2 t serves
        exact ⟨a, c, seen⟩
      refine ⟨t, tr', ⟨found, ?_, .inr ⟨reading, wait t serves (by simp [found])⟩⟩, ?_⟩
      · rw [input, borrows.into, data]
      · intro deletes remains
        rw [client, svc]
        obtain ⟨open_, alone⟩ := spared deletes remains
        exact ⟨open_, fun orphans => alone_of_effect all eff dispatched (alone orphans)⟩
    cases Outcome.of_effect all eff live with
    | kept live₀ intake wait =>
        simp only [Client.intake, Prod.mk.injEq] at intake
        have reading₀ := intake.1.symm.trans reading
        refine continues live₀ intake.1 intake.2.1 (wait (by simp [reading₀]) ?_ stays)
        exact fun running => lending.stopped c _ live₀ running reading₀
    | armed _ fixed => exact absurd reading fixed
    | input live₀ _ _ partly =>
        rcases partly with ⟨handler, input, wait⟩ | stopped
        · exact continues live₀ handler input wait
        · simp [stopped] at reading
    | returning _ _ received _ serves found into =>
        exact ⟨_, _, ⟨found, into, .inr ⟨reading, serves⟩⟩,
          fun deletes => absurd deletes (not_deletes_of_return received)⟩
  · intro c y live run reading
    rcases run_of_effect eff run live with running | stopped
    · cases Outcome.of_effect all eff live with
      | kept live₀ intake =>
          simp only [Client.intake, Prod.mk.injEq] at intake
          exact lending.stopped c _ live₀ running (intake.1.symm.trans reading)
      | armed _ fixed => exact fixed reading
      | input _ _ quiet =>
          rw [quiet] at running
          cases running
      | returning _ _ _ stopped => simp [stopped] at run
    · simp [stopped] at reading

theorem borrows_of_input (lending : Lending σ₀ e φ σ) (all : Inv ⟨φ, σ⟩)
    (live : σ.client c = some x) (stays : φ.closing ≠ some c) (into : x.input = some b) :
    x.Reads b ∨ ∃ t tr, σ.Borrows c x t tr := by
  apply reads_or_borrows all live stays into
  intro reading
  obtain ⟨t, tr, borrows, _⟩ := lending.returns c x live reading stays
  exact ⟨t, tr, borrows⟩

theorem inputs_apart (lending : Lending σ₀ e φ σ) (sound : Sound ⟨φ, σ⟩)
    (live : σ.client c = some x) (live' : σ.client k = some y) (stays : φ.closing ≠ some c)
    (stays' : φ.closing ≠ some k) (into : x.input = some b) (into' : y.input = some b) : c = k := by
  have all : Inv ⟨φ, σ⟩ := sound.all
  rcases lending.borrows_of_input all live stays into with reads | ⟨t, tr, borrows⟩
  · exact ((all.buffers.reading c x b live reads).2 k y live' into').symm
  rcases lending.borrows_of_input all live' stays' into' with reads | ⟨t', tr', borrows'⟩
  · exact (all.buffers.reading k y b live' reads).2 c x live into
  have data : tr.data = tr'.data :=
    Option.some.inj (borrows.into.symm.trans (into.trans (into'.symm.trans borrows'.into)))
  obtain rfl := all.buffers.apart t t' tr tr' borrows.found borrows'.found data
  obtain rfl := Option.some.inj (borrows.found.symm.trans borrows'.found)
  rcases lending.purpose all live stays borrows with ⟨owner, uploading⟩ | ⟨_, _, ⟨a, seen⟩, _⟩
  · rcases lending.purpose all live' stays' borrows' with ⟨owner', _⟩ | ⟨_, _, ⟨a, seen⟩, _⟩
    · exact owner.symm.trans owner'
    · exact absurd ⟨a, k, seen⟩ uploading.new
  · rcases lending.purpose all live' stays' borrows' with ⟨_, uploading⟩ | ⟨_, _, ⟨a', seen'⟩, _⟩
    · exact absurd ⟨a, c, seen⟩ uploading.new
    · exact (worker_unique sound.parking.once seen seen').2

end Lending

/-- Between two events, every worker that is sending a result borrows the data of its
transaction. -/
def State.Lends (σ : State) : Prop :=
  Answered σ ∧ ∀ c x, σ.client c = some x → x.handler = some .part2 → ∃ t tr, σ.Borrows c x t tr

theorem State.Lends.lending (lends : σ.Lends) (all : Inv ⟨{}, σ⟩) (spares : SparesReturns σ e) :
    Lending σ e {} σ := by
  refine ⟨?_, by simp, lends.1⟩
  intro c x live reading _
  obtain ⟨t, tr, borrows⟩ := lends.2 c x live reading
  refine ⟨t, tr, borrows, fun _ remains => ?_⟩
  have serves : x.wait4 = some (.tran t) := by
    rcases borrows.purpose with ⟨upload, _⟩ | ⟨_, serves⟩
    · simp [reading] at upload
    · exact serves
  exact spares c ((all.registry.mem_clients c).mpr ⟨x, live⟩) x live reading remains t
    (Client.serves_eq_some_iff.mpr serves) tr borrows.found

theorem lending_of_trace {κ : Conf} (sound : Sound ⟨{}, σ⟩) (lends : σ.Lends)
    (keeps : KeepsReturns σ e) (trace : Trace σ e ⟨{}, σ⟩ κ) : Lending σ e κ.phase κ.state := by
  induction trace with
  | refl => exact lends.lending sound.all keeps.2
  | tail sofar eff lending =>
      have soundNow := sound.trace sound.parking keeps.1 sofar
      exact lending.effect soundNow sound.all keeps.1 sofar eff

theorem lends_of_reachable (reach : Reachable KeepsReturns σ) : σ.Lends := by
  induction reach with
  | start => exact ⟨by simp [Answered, State.start], by simp [State.start]⟩
  | next reach keeps done lends =>
      have sound := sound_of_reachable (reach.mono fun _ _ => And.left)
      have lending := lending_of_trace sound lends keeps (step_trace sound.all done)
      refine ⟨lending.answered, fun c x live reading => ?_⟩
      obtain ⟨t, tr, borrows, _⟩ := lending.returns c x live reading (by simp)
      exact ⟨t, tr, borrows⟩

/-! ## Bystanders -/

theorem client_of_effect (all : Inv ⟨φ, σ⟩) (eff : Effect σ₀ e ⟨φ, σ⟩ ⟨φ', τ⟩) {c : ClientId}
    {x : Client} (live : σ.client c = some x) (stays : φ.closing ≠ some c) :
    ∃ y, τ.client c = some y := by
  have registry : Registry φ' τ := (all.effect eff).registry
  have connected : c ∈ σ.clients := (all.registry.mem_clients c).mpr ⟨x, live⟩
  apply (registry.mem_clients c).mp
  cases eff with
  | connect => exact List.mem_append_left _ connected
  | dropClient closing =>
      refine (List.mem_erase_of_ne ?_).mpr connected
      rintro rfl
      exact stays closing
  | _ => exact connected

theorem undisturbed_of_trace {κ : Conf} {c : ClientId} {x : Client} {b : BufId} {contents : Bytes}
    (sound : Sound ⟨{}, σ⟩) (lends : σ.Lends) (keeps : KeepsReturns σ e)
    (live : σ.client c = some x) (into : x.input = some b) (room : σ.buf b = some contents)
    (other : ∀ input, e.happening ≠ .ready c input) (trace : Trace σ e ⟨{}, σ⟩ κ) :
    (∃ y, κ.state.client c = some y ∧ y.intake = x.intake) ∧ κ.state.buf b = some contents := by
  induction trace with
  | refl => exact ⟨⟨x, live, rfl⟩, room⟩
  | @tail κ κ' sofar eff ih =>
      obtain ⟨⟨y, live', same⟩, room'⟩ := ih
      obtain ⟨φ, ρ⟩ := κ
      obtain ⟨φ', τ⟩ := κ'
      have soundNow : Sound ⟨φ, ρ⟩ := sound.trace sound.parking keeps.1 sofar
      have all : Inv ⟨φ, ρ⟩ := soundNow.all
      have lending : Lending σ e φ ρ := lending_of_trace sound lends keeps sofar
      have stays : φ.closing ≠ some c := by
        intro closing
        obtain ⟨input, source⟩ := (closes_of_trace sofar closing).source
        exact other input source
      have into' : y.input = some b := by
        simp only [Client.intake, Prod.mk.injEq] at same
        exact same.2.1.trans into
      have busy : ¬y.Idle := by
        intro idle
        simp [idle.2.1] at into'
      constructor
      · obtain ⟨z, live''⟩ := client_of_effect all eff live' stays
        refine ⟨z, live'', ?_⟩
        cases Outcome.of_effect all eff live'' with
        | kept before intake =>
            obtain rfl := Option.some.inj (live'.symm.trans before)
            exact intake.trans same
        | armed idle => exact absurd (idle y live') busy
        | input _ source =>
            obtain ⟨input, source⟩ := source
            exact absurd source (other input)
        | returning before idle =>
            obtain rfl := Option.some.inj (live'.symm.trans before)
            exact absurd idle busy
      · rcases buf_of_effect all eff room' with
          kept | held | ⟨k, z, input, source, rfl, before, reads⟩ | ⟨t, tr, found, data, taken⟩
        · exact kept
        · exact absurd into' ((all.buffers.held b held).2 c y live')
        · obtain rfl := lending.inputs_apart soundNow live' before (by simp) (by simp) into' reads
          exact absurd source (other input)
        · rcases lending.borrows_of_input all live' stays into' with reads | ⟨t', tr', borrows⟩
          · exact absurd data ((all.buffers.reading c y b live' reads).1.apart t tr found)
          · have same' : tr.data = tr'.data :=
              data.trans (Option.some.inj (into'.symm.trans borrows.into))
            obtain rfl := all.buffers.apart t t' tr tr' found borrows.found same'
            obtain ⟨tr'', found', _, _, data'⟩ :=
              lending.kept soundNow sound.all sofar eff live' stays borrows
            exact absurd (data'.trans (same'.symm.trans data)) (taken tr'' found')

/-! ## The result -/

/-- As long as no transaction is handed out twice and none is deleted while its result arrives:
whatever a client reads into is allocated, and is its own or the data of a current transaction that
it uploads or returns; and an event of another connection changes neither what the client reads nor
the buffer. -/
theorem inputs_live (reach : Reachable KeepsReturns σ) :
    (∀ c x b, σ.client c = some x → x.input = some b → (∃ contents, σ.buf b = some contents) ∧
      (σ.Private b ∧ (∀ k y, σ.client k = some y → y.input = some b → k = c) ∨
        ∃ t tr, σ.Borrows c x t tr)) ∧
    ∀ e τ c x b, KeepsReturns σ e → step σ e = .ok τ → σ.client c = some x → x.input = some b →
      (∀ input, e.happening ≠ .ready c input) →
      (∃ y, τ.client c = some y ∧ y.intake = x.intake) ∧ τ.buf b = σ.buf b ∧ τ.buf b ≠ none := by
  have sound := sound_of_reachable (reach.mono fun _ _ => And.left)
  have all : Inv ⟨{}, σ⟩ := sound.all
  have lends := lends_of_reachable reach
  have first : ∀ c x b, σ.client c = some x → x.input = some b →
      (∃ contents, σ.buf b = some contents) ∧
      (σ.Private b ∧ (∀ k y, σ.client k = some y → y.input = some b → k = c) ∨
        ∃ t tr, σ.Borrows c x t tr) := by
    intro c x b live into
    rcases reads_or_borrows all live (by simp) into (lends.2 c x live) with reads | ⟨t, tr, borrows⟩
    · obtain ⟨own, unique⟩ := all.buffers.reading c x b live reads
      exact ⟨own.room, .inl ⟨own, unique⟩⟩
    · obtain rfl := Option.some.inj (into.symm.trans borrows.into)
      exact ⟨all.buffers.data t tr borrows.found, .inr ⟨t, tr, borrows⟩⟩
  refine ⟨first, ?_⟩
  intro e τ c x b keeps done live into other
  obtain ⟨⟨contents, room⟩, _⟩ := first c x b live into
  obtain ⟨client, buf⟩ := undisturbed_of_trace sound lends keeps live into room other
    (step_trace all done)
  have buf : τ.buf b = some contents := buf
  exact ⟨client, buf.trans room.symm, by simp [buf]⟩

open Scenario in
/-- Client 0 sends three bytes of result, which are read into the data of transaction 11. -/
theorem inputs_live_returning : ∃ σ x b, Reachable KeepsReturns σ ∧ σ.client 0 = some x ∧
    x.handler = some .part2 ∧ x.input = some b ∧ (∃ contents, σ.buf b = some contents) ∧
    (σ.Private b ∧ (∀ k y, σ.client k = some y → y.input = some b → k = 0) ∨
      ∃ t tr, σ.Borrows 0 x t tr) := by
  obtain ⟨σ, reach, seen⟩ := reachable_of_permitted
    ([connect, connect] ++ advertise 0 65 ++ work 0 ++ call 2 65 0 9 ++ giveBack 0 2 3)
    (fun σ => (σ.client 0).map fun x => (x.handler, x.input.isSome)) (some (some .part2, true))
    (show permitted KeepsReturns _ _ = true by decide +kernel) (by decide +kernel)
  obtain ⟨x, live, same⟩ := Option.map_eq_some_iff.mp seen
  simp only [Prod.mk.injEq] at same
  obtain ⟨b, into⟩ := Option.isSome_iff_exists.mp same.2
  obtain ⟨room, use⟩ := (inputs_live reach).1 0 x b live into
  exact ⟨σ, x, b, reach, live, same.1, into, room, use⟩

open Scenario in
/-- The client that awaits the result goes away while client 0 is sending it: the buffer that client
0 goes on reading into is freed. -/
theorem input_freed : ∃ σ,
    run .start ([connect, connect] ++ advertise 0 65 ++ work 0 ++ call 2 65 0 9 ++ giveBack 0 2 3 ++
      [hangUp 2]) = .ok σ ∧ Reachable anyStep σ ∧
    ((σ.client 0).map fun x => (x.handler, x.input.map fun b => (σ.buf b).isSome)) =
      some (some .part2, some false) :=
  reachable_of_outcome _ _ _ (by decide +kernel)

end Switchboard
end Xatmi
