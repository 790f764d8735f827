import Xatmi.Switchboard.Intake
import Xatmi.Switchboard.Segmentation

/-!
# Reading a connection

Handlers cut the stream of a connection into commands, fixed parts and data. While a client is being
read from, the others neither write to it nor touch its buffer, so that what its handler is given
are the bytes that the client sent.
-/

namespace Xatmi
namespace Switchboard

open Relation

variable {σ₀ : State} {e : Event} {φ φ' : Phase} {σ τ : State} {c : ClientId}

/-! ## Streams -/

/-- The bytes that handling the event takes from the stream of client `c`. -/
def taken (σ : State) (e : Event) (c : ClientId) : Bytes :=
  match e.happening with
  | .ready k (some bytes) => if k = c then bytes.take ((σ.asked c).getD 0) else []
  | _ => []

/-- The bytes that are taken from the stream of client `c` in a run. -/
def stream (c : ClientId) (σ : State) : List Event → Bytes
  | [] => []
  | e :: events => taken σ e c ++
      match step σ e with
      | .ok τ => stream c τ events
      | .error _ => []

theorem taken_of_other (other : ∀ input, e.happening ≠ .ready c input) : taken σ e c = [] := by
  unfold taken
  split
  · rename_i k bytes source
    rw [if_neg]
    rintro rfl
    exact other _ source
  · rfl

theorem stream_cons {events : List Event} (done : step σ e = .ok τ) :
    stream c σ (e :: events) = taken σ e c ++ stream c τ events := by
  simp [stream, done]

theorem stream_append {first rest : List Event} (ran : run σ first = .ok τ) :
    stream c σ (first ++ rest) = stream c σ first ++ stream c τ rest := by
  induction first generalizing σ with
  | nil =>
      obtain rfl := Except.ok.inj ran
      rfl
  | cons e first ih =>
      obtain ⟨μ, done, ran⟩ := run_cons_ok_iff.mp ran
      rw [List.cons_append, stream_cons done, stream_cons done, ih ran, List.append_assoc]

/-- The event completes nothing of client `c` and does not end its connection. -/
structure PassesBy (c : ClientId) (σ : State) (e : Event) : Prop where
  incomplete : ∀ handler filled, ¬Received σ e c handler filled
  stays : ¬Closes σ e c

theorem passesBy_of_other (other : ∀ input, e.happening ≠ .ready c input) : PassesBy c σ e where
  incomplete := by
    intro handler filled received
    obtain ⟨input, _, _, _, _, source, _⟩ := received_elim received
    exact other input source
  stays := by
    intro closes
    obtain ⟨input, source⟩ := closes.source
    exact other input source

/-! ## Buffers -/

/-- No two clients read into the same buffer. -/
def Apart (σ : State) : Prop :=
  ∀ c k x y b, σ.client c = some x → σ.client k = some y → x.input = some b → y.input = some b →
    c = k

namespace Apart

theorem keep (apart : Apart σ)
    (client : ∀ c y b, τ.client c = some y → y.input = some b →
      ∃ x, σ.client c = some x ∧ x.input = some b) : Apart τ := by
  intro c k x y b live live' into into'
  obtain ⟨x', before, into⟩ := client c x b live into
  obtain ⟨y', before', into'⟩ := client k y b live' into'
  exact apart c k x' y' b before before' into into'

theorem of_eq (apart : Apart σ) (client : τ.client = σ.client) : Apart τ :=
  apart.keep fun _ y _ live into => ⟨y, client ▸ live, into⟩

theorem of_change (apart : Apart σ) {k : ClientId} {update : Client → Client}
    (client : τ.client = change σ.client k update)
    (input : ∀ x b, (update x).input = some b → x.input = some b) : Apart τ := by
  apply apart.keep
  intro c y b live into
  rw [client] at live
  obtain ⟨x, before, rfl⟩ := change_eq_some_iff.mp live
  refine ⟨x, before, ?_⟩
  split at into
  · exact input x b into
  · exact into

/-- A client starts to read into a buffer that nobody reads into. -/
theorem of_arm (apart : Apart σ) {k : ClientId} {update : Client → Client} {b : BufId}
    (client : τ.client = change σ.client k update) (input : ∀ x, (update x).input = some b)
    (unread : ∀ c x, σ.client c = some x → x.input ≠ some b) : Apart τ := by
  intro c₁ c₂ x y b' live live' into into'
  rw [client] at live live'
  obtain ⟨x, before, rfl⟩ := change_eq_some_iff.mp live
  obtain ⟨y, before', rfl⟩ := change_eq_some_iff.mp live'
  split at into
  · rename_i here
    split at into'
    · rename_i there
      exact here.trans there.symm
    · obtain rfl : b = b' := Option.some.inj ((input x).symm.trans into)
      exact absurd into' (unread _ _ before')
  · split at into'
    · obtain rfl : b = b' := Option.some.inj ((input y).symm.trans into')
      exact absurd into (unread _ _ before)
    · exact apart c₁ c₂ x y b' before before' into into'

theorem delTran (apart : Apart σ) (t : TranId) (tr : Transaction) : Apart (σ.delTran t tr) := by
  apply apart.keep
  intro c y b live into
  obtain ⟨x, before, rfl⟩ := Option.map_eq_some_iff.mp live
  exact ⟨x, before, into⟩

theorem effect (apart : Apart σ) (all : Inv ⟨φ, σ⟩) (eff : Effect σ₀ e ⟨φ, σ⟩ ⟨φ', τ⟩) :
    Apart τ := by
  have buffers : Buffers φ σ := all.buffers
  have new : ∀ c x, σ.client c = some x → x.input ≠ some σ.next :=
    fun _ _ live => buffers.unread_next live
  cases eff with
  | connect =>
      have added : Apart σ₀.addClient := by
        apply apart.keep
        intro c y b live into
        rcases put_eq_some_iff.mp live with ⟨_, made⟩ | ⟨_, before⟩
        · simp [← Option.some.inj made] at into
        · exact ⟨y, before, into⟩
      refine added.of_arm rfl (fun _ => rfl) fun c x live into => ?_
      rcases put_eq_some_iff.mp live with ⟨_, made⟩ | ⟨_, before⟩
      · simp [← Option.some.inj made] at into
      · have old : σ₀.next + 1 < σ₀.next := buffers.old c x _ before into
        omega
  | begin => exact apart.of_change rfl (by simp)
  | fill | submit | block | finish | requeue | offer | detach =>
      exact apart.of_change rfl fun _ _ => id
  | fail => exact apart.of_change rfl fun _ _ => id
  | armHeader _ held => exact apart.of_arm rfl (fun _ => rfl) (buffers.held _ held).2
  | next => exact apart.of_arm rfl (fun _ => rfl) new
  | armUpload _ _ _ _ _ _ _ _ unread => exact apart.of_arm rfl (fun _ => rfl) unread
  | armReturn _ _ _ _ _ _ _ _ unread => exact apart.of_arm rfl (fun _ => rfl) unread
  | assignUp | assignWork => exact apart.of_arm (change_change _ _ _ _) (fun _ => rfl) new
  | replyQueued | replyWaiting =>
      apply delTran
      exact apart.of_arm (change_change _ _ _ _) (fun _ => rfl) new
  | sweep | purge => exact apart.delTran _ _
  | dropClient =>
      exact apart.keep fun _ y _ live into => ⟨y, (put_none_eq_some_iff.mp live).2, into⟩
  | _ => exact apart.of_eq rfl

theorem trace {κ : Conf} (apart : Apart σ) (inv : Inv ⟨{}, σ⟩) (trace : Trace σ e ⟨{}, σ⟩ κ) :
    Apart κ.state := by
  induction trace with
  | refl => exact apart
  | tail sofar eff ih => exact ih.effect (inv.trace sofar) eff

end Apart

theorem apart_of_reachable {allowed : State → Event → Prop} (reach : Reachable allowed σ) :
    Apart σ := by
  induction reach with
  | start => simp [Apart, State.start]
  | next earlier _ done apart =>
      have inv := inv_of_reachable (earlier.mono fun _ _ _ => trivial)
      exact apart.trace inv (step_trace inv done)

/-! ## Transactions that were not dispatched -/

/-- A transaction that was not dispatched stays as it is, unless it is deleted with its client or
from the queue of its service. -/
theorem undispatched_of_effect (all : Inv ⟨φ, σ⟩) (eff : Effect σ₀ e ⟨φ, σ⟩ ⟨φ', τ⟩) {t : TranId}
    {tr : Transaction} (found : σ.tran t = some tr) (new : ¬σ.Dispatched t) :
    τ.tran t = some tr ∨ (τ.Dispatched t ∧ ∃ tr', τ.tran t = some tr' ∧ tr'.data = tr.data) ∨
      τ.tran t = none ∧ (φ.closing = some tr.client ∨ ¬σ.links.Alone (.tran t)) := by
  have dispatches : Dispatches φ σ := all.dispatches
  have changed : ∀ {key update}, t ≠ key → change σ.tran key update t = some tr :=
    fun different => change_eq_some_iff.mpr ⟨tr, found, by rw [if_neg different]⟩
  have kept : ∀ {key}, t ≠ key → put σ.tran key none t = some tr :=
    fun different => put_none_eq_some_iff.mpr ⟨different, found⟩
  have gone : ∀ {store : TranId → Option Transaction}, put store t none t = none :=
    fun {store} => if_pos rfl
  have assigned : ∀ {key a v frame adverts}, τ = (σ.dismiss adverts).assign a v key frame →
      τ.tran t = some tr ∨ τ.Dispatched t ∧ ∃ tr', τ.tran t = some tr' ∧ tr'.data = tr.data := by
    rintro key a v frame adverts rfl
    by_cases same : t = key
    · subst same
      exact .inr ⟨⟨a, v.client, List.mem_cons_self⟩, _, change_eq_some_iff.mpr ⟨tr, found, rfl⟩,
        by rw [if_pos rfl]⟩
    · exact .inl (changed same)
  cases eff with
  | submit =>
      refine .inl (put_eq_some_iff.mpr (.inr ⟨?_, found⟩))
      have old := (all.waits.old (.tran t) (Option.isSome_of_eq_some found)).1
      exact (old.trans (Nat.lt_succ_self _)).ne
  | assignUp | assignWork => exact (assigned rfl).imp_right .inl
  | @finish _ _ k x _ _ running _ live serves =>
      refine .inl (changed ?_)
      rintro rfl
      obtain ⟨a, seen⟩ := (dispatches.active k x live (.inr running)).2 t serves
      exact new ⟨a, k, seen⟩
  | fail _ _ _ _ found' executor =>
      refine .inl (changed ?_)
      rintro rfl
      obtain ⟨k, seen, _⟩ := dispatches.executor t _ _ found' executor
      exact new ⟨_, k, seen⟩
  | @setReturn _ _ k x _ _ _ _ _ _ running live serves =>
      rw [State.setReturn_tran]
      refine .inl (changed ?_)
      rintro rfl
      obtain ⟨a, seen⟩ := (dispatches.active k x live (.inr running)).2 t serves
      exact new ⟨a, k, seen⟩
  | replyQueued _ _ live queued =>
      refine .inl (kept ?_)
      rintro rfl
      exact new (dispatches.replied _ _ t live queued)
  | replyWaiting fin =>
      refine .inl (kept ?_)
      rintro rfl
      exact new (dispatches.finished t fin)
  | @sweep _ _ s t' _ _ queued _ first =>
      by_cases same : t = t'
      · subst same
        exact .inr (.inr ⟨gone, .inr (WaitQueues.not_alone_of_queued
          (all.waits.queued_of_first queued first))⟩)
      · exact .inl (kept same)
  | @purge _ _ k _ t' _ closing _ _ _ live _ mine =>
      by_cases same : t = t'
      · subst same
        have owner : tr.client = k := all.own.owner_eq live (List.mem_append.mpr mine) found
        exact .inr (.inr ⟨gone, .inl (owner ▸ closing)⟩)
      · exact .inl (kept same)
  | _ => exact .inl found

/-! ## Bystanders -/

theorem source_of_run {κ : Conf} (trace : Trace σ e ⟨{}, σ⟩ κ) (running : κ.phase.run = some c) :
    ∃ input, e.happening = .ready c input := by
  induction trace with
  | refl => cases running
  | tail _ eff ih =>
      cases eff with
      | begin received =>
          obtain rfl := Option.some.inj running
          obtain ⟨input, _, _, _, _, source, _⟩ := received_elim received
          exact ⟨input, source⟩
      | connect | fill | armHeader | armUpload | rest | block | armReturn | close | done =>
          cases running
      | _ => exact ih running

theorem sent_of_effect (eff : Effect σ₀ e ⟨φ, σ⟩ ⟨φ', τ⟩) :
    τ.sent c = σ.sent c ∨ φ.run = some c ∨ ∃ x, σ.client c = some x ∧ x.Idle := by
  have elsewhere : ∀ {k bytes}, c ≠ k → (σ.write k bytes).sent c = σ.sent c :=
    fun other => if_neg other
  cases eff with
  | @write _ _ k _ _ _ running =>
      by_cases same : c = k
      · exact .inr (.inl (same ▸ running))
      · exact .inl (elsewhere same)
  | @assignUp _ _ _ v _ _ _ _ _ _ _ _ _ _ _ _ _ worker idle =>
      by_cases same : c = v.client
      · exact .inr (.inr ⟨_, same ▸ worker, idle⟩)
      · exact .inl (elsewhere same)
  | @assignWork _ _ _ _ _ v _ _ _ _ _ _ _ _ _ _ _ _ _ _ worker idle =>
      by_cases same : c = v.client
      · exact .inr (.inr ⟨_, same ▸ worker, idle⟩)
      · exact .inl (elsewhere same)
  | @replyQueued _ _ _ _ _ _ tr _ _ _ _ _ owner idle =>
      by_cases same : c = tr.client
      · exact .inr (.inr ⟨_, same ▸ owner, idle⟩)
      · exact .inl (elsewhere same)
  | @replyWaiting _ _ _ _ tr _ _ owner idle =>
      by_cases same : c = tr.client
      · exact .inr (.inr ⟨_, same ▸ owner, idle⟩)
      · exact .inl (elsewhere same)
  | _ => exact .inl rfl

theorem intake_of_effect {x : Client} (all : Inv ⟨φ, σ⟩) (eff : Effect σ₀ e ⟨φ, σ⟩ ⟨φ', τ⟩)
    (live : σ.client c = some x) (reading : x.handler ≠ none) (stopped : φ.run ≠ some c)
    (stays : φ.closing ≠ some c) (other : ∀ input, e.happening ≠ .ready c input) :
    ∃ y, τ.client c = some y ∧ y.intake = x.intake ∧ τ.sent c = σ.sent c := by
  have busy : ¬x.Idle := fun idle => reading idle.1
  have quiet : τ.sent c = σ.sent c := by
    rcases sent_of_effect (c := c) eff with same | running | ⟨z, live', idle⟩
    · exact same
    · exact absurd running stopped
    · obtain rfl := Option.some.inj (live.symm.trans live')
      exact absurd idle busy
  obtain ⟨y, live'⟩ := client_of_effect all eff live stays
  refine ⟨y, live', ?_, quiet⟩
  cases Outcome.of_effect all eff live' with
  | kept before intake =>
      obtain rfl := Option.some.inj (live.symm.trans before)
      exact intake
  | armed idle => exact absurd (idle x live) busy
  | input _ source =>
      obtain ⟨input, source⟩ := source
      exact absurd source (other input)
  | returning before idle =>
      obtain rfl := Option.some.inj (live.symm.trans before)
      exact absurd idle busy

theorem stopped_of_trace {κ : Conf} (other : ∀ input, e.happening ≠ .ready c input)
    (trace : Trace σ e ⟨{}, σ⟩ κ) : κ.phase.run ≠ some c := by
  intro running
  obtain ⟨input, source⟩ := source_of_run trace running
  exact other input source

/-- A client whose event it is not is not being deleted. -/
theorem stays_of_trace {κ : Conf} (other : ∀ input, e.happening ≠ .ready c input)
    (trace : Trace σ e ⟨{}, σ⟩ κ) : κ.phase.closing ≠ some c := by
  intro closing
  obtain ⟨input, source⟩ := (closes_of_trace trace closing).source
  exact other input source

/-- While other clients are served, a client goes on reading what it reads and nothing is written to
it. -/
theorem reading_of_trace {κ : Conf} {x : Client} (inv : Inv ⟨{}, σ⟩) (live : σ.client c = some x)
    (reading : x.handler ≠ none) (other : ∀ input, e.happening ≠ .ready c input)
    (trace : Trace σ e ⟨{}, σ⟩ κ) :
    ∃ y, κ.state.client c = some y ∧ y.intake = x.intake ∧ κ.state.sent c = σ.sent c := by
  induction trace with
  | refl => exact ⟨x, live, rfl, rfl⟩
  | @tail κ κ' sofar eff ih =>
      obtain ⟨y, live', same, silent⟩ := ih
      have handler : y.handler = x.handler := congrArg Prod.fst same
      obtain ⟨z, live'', same', silent'⟩ :=
        intake_of_effect (inv.trace sofar) eff live' (handler ▸ reading)
          (stopped_of_trace other sofar) (stays_of_trace other sofar) other
      exact ⟨z, live'', same'.trans same, silent'.trans silent⟩

theorem uploading_of_trace {κ : Conf} {x : Client} {t : TranId} {tr : Transaction}
    (inv : Inv ⟨{}, σ⟩) (live : σ.client c = some x) (reads : x.handler = some .sendToWorker)
    (into : x.input = some tr.data) (found : σ.tran t = some tr)
    (other : ∀ input, e.happening ≠ .ready c input) (trace : Trace σ e ⟨{}, σ⟩ κ) :
    κ.state.tran t = some tr := by
  have uploads : ∀ {κ' tr'}, Trace σ e ⟨{}, σ⟩ κ' → κ'.state.tran t = some tr' →
      tr'.data = tr.data → tr'.client = c ∧ ∃ y, κ'.state.Uploading t tr' y := by
    intro κ' tr' trace' found' data
    have all : Inv κ' := inv.trace trace'
    obtain ⟨y, live', same, _⟩ := reading_of_trace inv live (by simp [reads]) other trace'
    simp only [Client.intake, Prod.mk.injEq] at same
    obtain ⟨t'', tr'', uploading, owner, into''⟩ :=
      all.dispatches.upload c y live' (same.1.trans reads) (stays_of_trace other trace')
    have shared : tr'.data = tr''.data :=
      data.trans (Option.some.inj (into.symm.trans (same.2.1.symm.trans into'')))
    obtain rfl := all.buffers.apart t t'' tr' tr'' found' uploading.found shared
    obtain rfl := Option.some.inj (found'.symm.trans uploading.found)
    exact ⟨owner, y, uploading⟩
  induction trace with
  | refl => exact found
  | @tail κ κ' sofar eff found' =>
      obtain ⟨owner, y, uploading⟩ := uploads sofar found' rfl
      have all : Inv κ := inv.trace sofar
      rcases undispatched_of_effect all eff found' uploading.new with
        kept | ⟨dispatched, tr', found'', data⟩ | ⟨_, closing | queued⟩
      · exact kept
      · obtain ⟨_, _, uploading'⟩ := uploads (sofar.tail eff) found'' data
        exact absurd dispatched uploading'.new
      · exact absurd (owner ▸ closing) (stays_of_trace other sofar)
      · exact absurd uploading.alone queued

/-- While other clients are served, nobody touches the buffer of a client; if that is the data of a
result, as long as the transaction stays. -/
theorem input_of_trace {κ : Conf} {x : Client} {b : BufId} {contents : Bytes} (inv : Inv ⟨{}, σ⟩)
    (apart : Apart σ) (live : σ.client c = some x) (into : x.input = some b)
    (borrowed : x.handler = some .part2 →
      ∃ t tr, tr.data = b ∧ ∀ κ', Trace σ e ⟨{}, σ⟩ κ' → Trace σ e κ' κ → κ'.state.tran t = some tr)
    (room : σ.buf b = some contents)
    (other : ∀ input, e.happening ≠ .ready c input) (trace : Trace σ e ⟨{}, σ⟩ κ) :
    κ.state.buf b = some contents := by
  have reading : x.handler ≠ none := by
    intro none_
    simp [((inv.readers c x live).idle none_).2.1] at into
  induction trace with
  | refl => exact room
  | @tail κ κ' sofar eff ih =>
      have room' : κ.state.buf b = some contents := by
        refine ih fun returning => ?_
        obtain ⟨t, tr, data, kept⟩ := borrowed returning
        exact ⟨t, tr, data, fun μ before after => kept μ before (after.tail eff)⟩
      obtain ⟨y, live', same, _⟩ := reading_of_trace inv live reading other sofar
      simp only [Client.intake, Prod.mk.injEq] at same
      have all : Inv κ := inv.trace sofar
      have into' : y.input = some b := same.2.1.trans into
      rcases buf_of_effect all eff room' with
        kept | held | ⟨k, z, input, source, _, before, reads⟩ | ⟨t, tr, found, data, lost⟩
      · exact kept
      · exact absurd into' ((all.buffers.held b held).2 c y live')
      · obtain rfl := apart.trace inv sofar c k y z b live' before into' reads
        exact absurd source (other input)
      · have owned : (∃ t' tr', tr'.data = b ∧
            ∀ μ, Trace σ e ⟨{}, σ⟩ μ → Trace σ e μ κ' → μ.state.tran t' = some tr') → False := by
          rintro ⟨t', tr', rfl, kept⟩
          obtain rfl := all.buffers.apart t t' tr tr' found (kept _ sofar (.single eff)) data
          exact lost tr' (kept _ (sofar.tail eff) .refl) rfl
        by_cases returning : x.handler = some .part2
        · exact (owned (borrowed returning)).elim
        · rcases reads_or_borrows inv live (by simp) into fun here => absurd here returning with
            reads | ⟨t', tr', borrows⟩
          · obtain ⟨_, handler, reads, fixed'⟩ := reads
            have reads' : y.Reads b := ⟨into', handler, same.1.trans reads, fixed'⟩
            exact absurd data ((all.buffers.reading c y b live' reads').1.apart t tr found)
          · obtain rfl := Option.some.inj (into.symm.trans borrows.into)
            have upload : x.handler = some .sendToWorker := by
              rcases borrows.purpose with ⟨upload, _⟩ | ⟨here, _⟩
              · exact upload
              · exact absurd here returning
            exact (owned ⟨t', tr', rfl, fun _ before _ =>
              uploading_of_trace inv live upload into borrows.found other before⟩).elim

/-! ## Connections that are gone -/

theorem connected_of_trace {κ : Conf} (trace : Trace σ e ⟨{}, σ⟩ κ)
    (connected : c ∈ κ.state.clients) :
    c ∈ σ.clients ∨ σ.next ≤ c := by
  induction trace with
  | refl => exact .inl connected
  | tail sofar eff ih =>
      cases eff with
      | connect =>
          rcases List.mem_append.mp connected with before | made
          · exact .inl before
          · exact .inr (List.mem_singleton.mp made).ge
      | dropClient => exact ih (List.mem_of_mem_erase connected)
      | _ => exact ih connected

theorem stream_of_gone {events : List Event} (inv : Inv ⟨{}, σ⟩) (gone : c ∉ σ.clients)
    (old : c < σ.next) : stream c σ events = [] := by
  induction events generalizing σ with
  | nil => rfl
  | cons e events ih =>
      have absent : σ.client c = none := by
        by_contra live
        obtain ⟨x, live⟩ := Option.ne_none_iff_exists'.mp live
        exact gone ((inv.registry.mem_clients c).mpr ⟨x, live⟩)
      have nothing : taken σ e c = [] := by
        unfold taken
        split
        · simp [asked_eq_none absent]
        · rfl
      cases done : step σ e with
      | error fault => simp [stream, done, nothing]
      | ok τ =>
          have trace := step_trace inv done
          rw [stream_cons done, nothing, List.nil_append]
          apply ih (inv.trace trace)
          · intro connected
            rcases connected_of_trace trace connected with before | new
            · exact gone before
            · exact absurd old (Nat.not_lt.mpr new)
          · exact old.trans_le (next_le_of_trace trace)

/-! ## Reading -/

/-- Client `c` has sent `got`, the beginning of the `room` bytes that its handler is going to be
called with. -/
def State.Reading (σ : State) (c : ClientId) (handler : Handler) (room : Nat) (got : Bytes) :
    Prop :=
  ∃ x b contents, σ.client c = some x ∧ x.handler = some handler ∧ x.input = some b ∧
    x.used = got.length ∧ σ.buf b = some contents ∧ contents.length = room ∧
    contents.take got.length = got

instance (σ : State) (c : ClientId) (handler : Handler) (room : Nat) (got : Bytes) :
    Decidable (σ.Reading c handler room got) :=
  decidable_of_iff (∃ x ∈ σ.client c, x.handler = some handler ∧ x.used = got.length ∧
    ∃ b ∈ x.input,
      ∃ contents ∈ σ.buf b, contents.length = room ∧ contents.take got.length = got)
    ⟨fun ⟨x, live, reads, used, b, into, contents, stored, rest⟩ =>
        ⟨x, b, contents, live, reads, into, used, stored, rest⟩,
      fun ⟨x, b, contents, live, reads, into, used, stored, rest⟩ =>
        ⟨x, live, reads, used, b, into, contents, stored, rest⟩⟩

namespace State.Reading

variable {handler : Handler} {room : Nat} {got : Bytes}

theorem asked_eq (reading : σ.Reading c handler room got) :
    σ.asked c = some (room - got.length) := by
  obtain ⟨x, b, contents, live, _, into, used, stored, rfl, _⟩ := reading
  exact asked_eq_some_iff.mpr ⟨x, b, contents, live, into, stored, by rw [used]⟩

theorem connected (reading : σ.Reading c handler room got) (inv : Inv ⟨{}, σ⟩) : c ∈ σ.clients := by
  obtain ⟨x, _, _, live, _⟩ := reading
  exact (inv.registry.mem_clients c).mpr ⟨x, live⟩

theorem short (reading : σ.Reading c handler room got) (inv : Inv ⟨{}, σ⟩) : got.length < room := by
  obtain ⟨x, b, contents, live, _, into, used, stored, rfl, _⟩ := reading
  have space := inv.buffers.space c x b contents live into stored
  omega

/-- An event of another client. -/
theorem beside (reading : σ.Reading c handler room got) (inv : Inv ⟨{}, σ⟩) (apart : Apart σ)
    (borrowed : handler = .part2 → ∃ x t tr, σ.client c = some x ∧ x.input = some tr.data ∧
      ∀ κ, Trace σ e ⟨{}, σ⟩ κ → Trace σ e κ ⟨{}, τ⟩ → κ.state.tran t = some tr)
    (other : ∀ input, e.happening ≠ .ready c input)
    (done : step σ e = .ok τ) : τ.Reading c handler room got ∧ τ.sent c = σ.sent c := by
  obtain ⟨x, b, contents, live, reads, into, used, stored, length, start⟩ := reading
  have trace := step_trace inv done
  obtain ⟨y, live', same, silent⟩ := reading_of_trace inv live (by simp [reads]) other trace
  have stored' : τ.buf b = some contents := by
    refine input_of_trace inv apart live into (fun returning => ?_) stored other trace
    obtain ⟨z, t, tr, live'', into', kept⟩ :=
      borrowed (Option.some.inj (reads.symm.trans returning))
    obtain rfl := Option.some.inj (live.symm.trans live'')
    exact ⟨t, tr, Option.some.inj (into'.symm.trans into), kept⟩
  simp only [Client.intake, Prod.mk.injEq] at same
  exact ⟨⟨y, b, contents, live', same.1.trans reads, same.2.1.trans into, same.2.2.trans used,
    stored', length, start⟩, silent⟩

/-- The same, when what is read is not the data of a result. -/
theorem other (reading : σ.Reading c handler room got) (inv : Inv ⟨{}, σ⟩) (apart : Apart σ)
    (fixed : handler ≠ .part2) (other : ∀ input, e.happening ≠ .ready c input)
    (done : step σ e = .ok τ) : τ.Reading c handler room got ∧ τ.sent c = σ.sent c :=
  reading.beside inv apart (fun returning => absurd returning fixed) other done

theorem overwrite_eq {contents piece : Bytes} (start : contents.take got.length = got) :
    overwrite contents got.length piece = got ++ piece ++ contents.drop
      (got.length + piece.length) := by
  rw [overwrite, start]

/-- An event of the client itself: its connection ends, more of the buffer is filled, or all of
it. -/
theorem own {input : Option Bytes} (reading : σ.Reading c handler room got) (inv : Inv ⟨{}, σ⟩)
    (source : e.happening = .ready c input) (done : step σ e = .ok τ) :
    taken σ e c = [] ∧ τ.client c = none ∨
      τ.Reading c handler room (got ++ taken σ e c) ∧
      (∃ b contents piece, τ = σ.fill c b contents piece) ∧
          PassesBy c σ e ∨
      Received σ e c handler (got ++ taken σ e c) ∧ (got ++ taken σ e c).length = room := by
  have connected := reading.connected inv
  have short := reading.short inv
  have asked := reading.asked_eq
  obtain ⟨x, b, contents, live, reads, into, used, stored, length, start⟩ := reading
  have ends : input = none ∨ input = some [] → τ.client c = none := by
    intro ends
    obtain ⟨_, _, _, _, deleted⟩ :=
      delClient_of_step (.inl ⟨input, x, source, connected, live, .inr (.inr (.inr ends))⟩) done
    exact client_of_delClient deleted
  cases input with
  | none => exact .inl ⟨by simp [taken, source], ends (.inl rfl)⟩
  | some bytes =>
      by_cases empty : bytes = []
      · subst empty
        exact .inl ⟨by simp [taken, source], ends (.inr rfl)⟩
      obtain ⟨piece, piece_eq⟩ : ∃ piece, piece = bytes.take (room - got.length) := ⟨_, rfl⟩
      have takes : taken σ e c = piece := by simp [taken, source, asked, piece_eq]
      have some_ : piece ≠ [] := by
        rw [piece_eq, Ne, List.take_eq_nil_iff]
        rintro (full | none_)
        · omega
        · exact empty none_
      have fits : x.used + piece.length ≤ contents.length := by
        rw [piece_eq, List.length_take]
        omega
      have piece_got : (some bytes).map (List.take (contents.length - x.used)) = some piece := by
        rw [piece_eq, used, length, Option.map_some]
      have stores : overwrite contents got.length piece =
          got ++ piece ++ contents.drop (got.length + piece.length) := overwrite_eq start
      right
      rw [takes]
      by_cases complete : x.used + piece.length = contents.length
      · right
        have full : overwrite contents x.used piece = got ++ piece := by
          rw [used, stores, List.drop_of_length_le (by omega), List.append_nil]
        refine ⟨full ▸ received_intro source connected live reads into stored piece_got some_
          complete, ?_⟩
        rw [List.length_append]
        omega
      · left
        rw [step_ready source connected, serve_piece live into reads stored piece_got some_ fits,
          if_neg complete] at done
        obtain rfl := Except.ok.inj done
        have passes : PassesBy c σ e := by
          have incomplete : ∀ handler filled, ¬Received σ e c handler filled := by
            intro handler' filled received
            obtain ⟨input', y, b', contents', piece', source', _, live', _, into', stored', got', _,
                full, _⟩ :=
              received_elim received
            obtain rfl := Option.some.inj (live.symm.trans live')
            obtain rfl := Option.some.inj (into.symm.trans into')
            obtain rfl := Option.some.inj (stored.symm.trans stored')
            obtain ⟨_, rfl⟩ := Happening.ready.inj (source.symm.trans source')
            obtain rfl := Option.some.inj (piece_got.symm.trans got')
            exact complete full
          refine ⟨incomplete, fun closes => ?_⟩
          rcases closes with ⟨input', y, source', _, live', reason⟩ | ⟨filled, received, _⟩
          · obtain rfl := Option.some.inj (live.symm.trans live')
            obtain ⟨_, rfl⟩ := Happening.ready.inj (source.symm.trans source')
            rcases reason with idle | idle | ⟨b', contents', into', stored', full⟩ | ended | ended
            · cases reads.symm.trans idle
            · cases into.symm.trans idle
            · obtain rfl := Option.some.inj (into.symm.trans into')
              obtain rfl := Option.some.inj (stored.symm.trans stored')
              omega
            · cases ended
            · exact empty (Option.some.inj ended)
          · exact incomplete _ _ received
        refine ⟨⟨_, b, _, change_eq_some_iff.mpr ⟨x, live, rfl⟩, ?_, ?_, ?_,
          put_eq_some_iff.mpr (.inl ⟨rfl, rfl⟩), ?_, ?_⟩, ⟨_, _, _, rfl⟩, passes⟩
        · simpa using reads
        · simpa using into
        · simp [used]
        · rw [length_overwrite fits, length]
        · rw [used, stores]
          exact List.take_left

/-- The buffer is full as soon as enough bytes have been taken from the stream, unless others take
the buffer away and nothing is taken from the stream any more. Until then, what other clients and
the bytes that arrive leave alone stays. -/
theorem fills {events : List Event} {motive : State → Prop} {allowed : State → Event → Prop}
    (reach : Reachable allowed σ) (meets : Meets allowed σ events)
    (reading : σ.Reading c handler room got) (others : ∀ μ e μ' got, Reachable allowed μ →
      allowed μ e → motive μ → μ.Reading c handler room got →
      (∀ input, e.happening ≠ .ready c input) → step μ e = .ok μ' →
      μ'.Reading c handler room got ∧ μ'.sent c = μ.sent c ∨
        ∀ events ν, run μ' events = .ok ν → stream c μ' events = [])
    (execution : run σ events = .ok τ) (enough : room ≤ got.length + (stream c σ events).length)
    (start : motive σ)
    (kept : ∀ μ e μ' got, Reachable allowed μ → allowed μ e → PassesBy c μ e →
      μ.Reading c handler room got → step μ e = .ok μ' →
      (∀ input, e.happening ≠ .ready c input) ∨
      (∃ b contents piece, μ' = μ.fill c b contents piece) →
      motive μ → motive μ') :
    ∃ first e rest ρ ρ', events = first ++ e :: rest ∧ run σ first = .ok ρ ∧ step ρ e = .ok ρ' ∧
      run ρ' rest = .ok τ ∧ Received ρ e c handler (got ++ stream c σ (first ++ [e])) ∧
      got.length + (stream c σ (first ++ [e])).length = room ∧
      stream c σ events = stream c σ (first ++ [e]) ++ stream c ρ' rest ∧ ρ.sent c = σ.sent c ∧
      motive ρ := by
  induction events generalizing σ got with
  | nil =>
      have short := reading.short (inv_of_reachable reach)
      simp only [stream, List.length_nil] at enough
      omega
  | cons e events ih =>
      have inv := inv_of_reachable reach
      have connected := reading.connected inv
      obtain ⟨permits, meets⟩ := meets
      obtain ⟨ρ, done, execution⟩ := run_cons_ok_iff.mp execution
      have reach' : Reachable allowed ρ := .next reach permits done
      rw [stream_cons done] at enough ⊢
      have continues : ρ.Reading c handler room (got ++ taken σ e c) → ρ.sent c = σ.sent c →
          motive ρ → ∃ first e' rest μ μ', e :: events = first ++ e' :: rest ∧ run σ first = .ok μ ∧
            step μ e' = .ok μ' ∧ run μ' rest = .ok τ ∧
            Received μ e' c handler (got ++ stream c σ (first ++ [e'])) ∧
            got.length + (stream c σ (first ++ [e'])).length = room ∧
            taken σ e c ++ stream c ρ events = stream c σ (first ++ [e']) ++ stream c μ' rest ∧
            μ.sent c = σ.sent c ∧ motive μ := by
        intro reading' silent holds
        obtain ⟨first, e', rest, μ, μ', rfl, execution₁, done', execution₂, received, length, split,
          silent', holds'⟩ := ih reach' (meets ρ done) reading' execution
            (by simp only [List.length_append] at enough ⊢; omega) holds
        have stream_eq : stream c σ (e :: first ++ [e']) =
            taken σ e c ++ stream c ρ (first ++ [e']) := stream_cons done
        refine ⟨e :: first, e', rest, μ, μ', rfl, run_cons_ok_iff.mpr ⟨ρ, done, execution₁⟩, done',
          execution₂, ?_, ?_, ?_, silent'.trans silent, holds'⟩
        · rw [stream_eq, ← List.append_assoc]
          exact received
        · rw [stream_eq, List.length_append]
          rw [List.length_append] at length
          omega
        · rw [stream_eq, split, List.append_assoc]
      by_cases mine : ∃ input, e.happening = .ready c input
      · obtain ⟨input, source⟩ := mine
        have alone : stream c σ [e] = taken σ e c := by simp [stream, done]
        rcases reading.own inv source done with ⟨nothing, gone⟩ | ⟨reading', fills, passes⟩ |
          ⟨received, full⟩
        · have inv' := inv_of_reachable reach'
          have absent : c ∉ ρ.clients := by
            intro still
            obtain ⟨x, live⟩ := (inv'.registry.mem_clients c).mp still
            simp [gone] at live
          have old : c < ρ.next :=
            (inv.fresh.clients c connected).trans_le (next_le_of_trace (step_trace inv done))
          have short := reading.short inv
          rw [nothing, stream_of_gone inv' absent old] at enough
          simp only [List.append_nil, List.length_nil] at enough
          omega
        · refine continues reading' ?_ (kept σ e ρ got reach permits passes reading done
            (.inr fills) start)
          obtain ⟨_, _, _, rfl⟩ := fills
          rfl
        · refine ⟨[], e, events, σ, ρ, rfl, rfl, done, execution, ?_, ?_, ?_, rfl, start⟩
          · simpa [alone] using received
          · simpa [alone] using full
          · simp [alone]
      · simp only [not_exists] at mine
        have nothing := taken_of_other (σ := σ) mine
        rcases others σ e ρ got reach permits start reading mine done with ⟨reading', silent⟩ |
          stuck
        · refine continues ?_ silent
            (kept σ e ρ got reach permits (passesBy_of_other mine) reading done (.inl mine) start)
          rw [nothing, List.append_nil]
          exact reading'
        · have short := reading.short inv
          rw [nothing, stuck events τ execution] at enough
          simp only [List.append_nil, List.length_nil] at enough
          omega

/-- The same, when what is read is not the data of a result. -/
theorem receives {events : List Event} {motive : State → Prop} {allowed : State → Event → Prop}
    (reach : Reachable allowed σ) (meets : Meets allowed σ events)
    (reading : σ.Reading c handler room got) (fixed : handler ≠ .part2)
    (execution : run σ events = .ok τ) (enough : room ≤ got.length + (stream c σ events).length)
    (start : motive σ)
    (kept : ∀ μ e μ' got, Reachable allowed μ → allowed μ e → PassesBy c μ e →
      μ.Reading c handler room got → step μ e = .ok μ' →
      (∀ input, e.happening ≠ .ready c input) ∨
      (∃ b contents piece, μ' = μ.fill c b contents piece) →
      motive μ → motive μ') :
    ∃ first e rest ρ ρ', events = first ++ e :: rest ∧ run σ first = .ok ρ ∧ step ρ e = .ok ρ' ∧
      run ρ' rest = .ok τ ∧ Received ρ e c handler (got ++ stream c σ (first ++ [e])) ∧
      got.length + (stream c σ (first ++ [e])).length = room ∧
      stream c σ events = stream c σ (first ++ [e]) ++ stream c ρ' rest ∧ ρ.sent c = σ.sent c ∧
      motive ρ :=
  reading.fills reach meets
    (fun _ _ _ _ reach _ _ reading other done =>
      .inl (reading.other (inv_of_reachable reach) (apart_of_reachable reach) fixed other done))
    execution enough start kept

end State.Reading

end Switchboard
end Xatmi
