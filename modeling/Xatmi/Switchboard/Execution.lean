import Xatmi.Switchboard.Run
import Mathlib.Data.Bool.Basic

/-!
# Symbolic execution

When each piece of code succeeds and the state it leaves.  The rules are equivalences, so the same
rule inverts a successful execution and shows that one exists.
-/

namespace Xatmi
namespace Switchboard

open Program

/-! ## Stores -/

theorem put_eq_some_iff {α : Type} {store : Nat → Option α} {key k : Nat} {value : Option α}
    {x : α} :
    put store key value k = some x ↔ k = key ∧ value = some x ∨ k ≠ key ∧ store k = some x := by
  grind [put]

theorem put_none_eq_some_iff {α : Type} {store : Nat → Option α} {key k : Nat} {x : α} :
    put store key none k = some x ↔ k ≠ key ∧ store k = some x := by
  simp [put_eq_some_iff]

theorem change_eq_some_iff {α : Type} {store : Nat → Option α} {key k : Nat} {update : α → α}
    {y : α} :
    change store key update k = some y ↔
      ∃ x, store k = some x ∧ y = if k = key then update x else x := by
  unfold change
  split <;> simp [eq_comm]

theorem exists_change_eq_some_iff {α : Type} {store : Nat → Option α} {key k : Nat}
    {update : α → α} :
    (∃ y, change store key update k = some y) ↔ ∃ x, store k = some x := by
  unfold change
  split <;> simp

theorem change_change {α : Type} (store : Nat → Option α) (key : Nat) (first second : α → α) :
    change (change store key first) key second = change store key (second ∘ first) := by
  funext k
  unfold change
  split <;> simp

/-! ## Object access -/

theorem readClient_ok_iff {c : ClientId} {x : Client} {σ σ' : State} :
    readClient c σ = .ok (x, σ') ↔ σ.client c = some x ∧ σ' = σ :=
  demand_ok_iff

theorem readService_ok_iff {s : ServiceId} {x : Service} {σ σ' : State} :
    readService s σ = .ok (x, σ') ↔ σ.service s = some x ∧ σ' = σ :=
  demand_ok_iff

theorem readAdvert_ok_iff {a : AdvertId} {x : Advert} {σ σ' : State} :
    readAdvert a σ = .ok (x, σ') ↔ σ.advert a = some x ∧ σ' = σ :=
  demand_ok_iff

theorem readTran_ok_iff {t : TranId} {x : Transaction} {σ σ' : State} :
    readTran t σ = .ok (x, σ') ↔ σ.tran t = some x ∧ σ' = σ :=
  demand_ok_iff

theorem readBuf_ok_iff {b : BufId} {x : Bytes} {σ σ' : State} :
    readBuf b σ = .ok (x, σ') ↔ σ.buf b = some x ∧ σ' = σ :=
  demand_ok_iff

theorem modifyClient_ok_iff {c : ClientId} {update : Client → Client} {u : PUnit}
    {σ σ' : State} :
    modifyClient c update σ = .ok (u, σ') ↔
      (∃ x, σ.client c = some x) ∧ σ' = σ.mapClient c update := by
  simp [modifyClient, bind_ok_iff, modify_ok_iff, readClient_ok_iff]

theorem modifyService_ok_iff {s : ServiceId} {update : Service → Service} {u : PUnit}
    {σ σ' : State} :
    modifyService s update σ = .ok (u, σ') ↔
      (∃ x, σ.service s = some x) ∧ σ' = σ.mapService s update := by
  simp [modifyService, bind_ok_iff, modify_ok_iff, readService_ok_iff]

theorem modifyTran_ok_iff {t : TranId} {update : Transaction → Transaction} {u : PUnit}
    {σ σ' : State} :
    modifyTran t update σ = .ok (u, σ') ↔
      (∃ x, σ.tran t = some x) ∧ σ' = σ.mapTran t update := by
  simp [modifyTran, bind_ok_iff, modify_ok_iff, readTran_ok_iff]

/-- Record an observation. -/
def State.observe (σ : State) (o : Obs) : State :=
  { σ with log := o :: σ.log }

theorem observe_ok_iff {o : Obs} {u : PUnit} {σ σ' : State} :
    observe o σ = .ok (u, σ') ↔ σ' = σ.observe o :=
  modify_ok_iff

/-! ## Buffers -/

theorem tpalloc_ok_iff {size : Int} {b : Option BufId} {σ σ' : State} :
    tpalloc size σ = .ok (b, σ') ↔
      size < 0 ∧ b = none ∧ σ' = σ ∨
        0 ≤ size ∧ b = some σ.next ∧ σ' = σ.allocBuf (List.replicate size.toNat 0) := by
  unfold tpalloc
  split
  · simp only [pure_ok_iff]
    grind
  · simp only [bind_ok_iff, get_ok_iff, set_ok_iff, pure_ok_iff]
    grind

theorem tpreallocWith_ok_iff {granted : Bool} {b : BufId} {size : Int} {result : Option BufId}
    {σ σ' : State} :
    tpreallocWith granted b size σ = .ok (result, σ') ↔
      ∃ contents, σ.buf b = some contents ∧
        ((size < 0 ∨ granted = false) ∧ result = none ∧ σ' = σ ∨
          0 ≤ size ∧ granted = true ∧ result = some σ.next ∧
            σ' = (σ.freeBuf b).allocBuf (resize contents size.toNat)) := by
  have moves {contents : Bytes} : (do
      let σ ← get
      set ((σ.freeBuf b).allocBuf (resize contents size.toNat))
      pure (some σ.next) : M (Option BufId)) σ = .ok (result, σ') ↔
        result = some σ.next ∧ σ' = (σ.freeBuf b).allocBuf (resize contents size.toNat) := by
    simp only [bind_ok_iff, get_ok_iff, set_ok_iff, pure_ok_iff]
    grind
  simp only [tpreallocWith, bind_ok_iff, readBuf_ok_iff, and_assoc, exists_and_left, exists_eq_left]
  refine exists_congr fun contents => and_congr_right fun _ => ?_
  rcases Int.lt_or_le size 0 with refused | fits
  · simp only [if_pos refused, pure_ok_iff]
    grind
  · rw [if_neg (Int.not_lt.mpr fits)]
    cases granted with
    | false =>
        simp only [Bool.false_eq_true, ↓reduceIte, pure_ok_iff]
        grind
    | true =>
        simp only [↓reduceIte, moves]
        grind

theorem tprealloc_ok_iff {b : BufId} {size : Int} {result : Option BufId} {σ σ' : State} :
    tprealloc b size σ = .ok (result, σ') ↔
      ∃ contents, σ.buf b = some contents ∧
        (size < 0 ∧ result = none ∧ σ' = σ ∨
          0 ≤ size ∧ result = some σ.next ∧
            σ' = (σ.freeBuf b).allocBuf (resize contents size.toNat)) := by
  simp [tprealloc, tpreallocWith_ok_iff]

theorem tpfree_ok_iff {b : BufId} {u : PUnit} {σ σ' : State} :
    tpfree b σ = .ok (u, σ') ↔ (∃ contents, σ.buf b = some contents) ∧ σ' = σ.freeBuf b := by
  simp [tpfree, bind_ok_iff, modify_ok_iff, readBuf_ok_iff]

/-! ## Wait queues -/

/-- Nodes that `qdelete` touches are allocated. -/
def State.Unlinkable (σ : State) (node : Node) : Prop :=
  σ.nodeLive node ∧ σ.nodeLive (σ.links.p1 node) ∧ σ.nodeLive (σ.links.p2 node)

/-- Nodes that `qappend` touches are allocated. -/
def State.Linkable (σ : State) (s : ServiceId) (node : Node) : Prop :=
  σ.nodeLive (.head s) ∧ σ.nodeLive node ∧ σ.nodeLive (σ.links.p1 (.head s)) ∧
    σ.nodeLive (σ.links.p2 (σ.links.p1 (.head s)))

/-- Take a node out of its ring. -/
def State.unlink (σ : State) (node : Node) : State :=
  { σ with links := σ.links.delete node }

/-- Link a node at the end of a service's wait queue. -/
def State.link (σ : State) (s : ServiceId) (node : Node) : State :=
  { σ with links := σ.links.append (σ.links.p1 (.head s)) node }

theorem qisempty_ok_iff {s : ServiceId} {empty : Bool} {σ σ' : State} :
    qisempty s σ = .ok (empty, σ') ↔
      (∃ x, σ.service s = some x) ∧ empty = decide (σ.links.p1 (.head s) = .head s) ∧ σ' = σ := by
  simp only [qisempty, Queue.qisempty, bind_ok_iff, get_ok_iff, readService_ok_iff, pure_ok_iff]
  grind

theorem qfirst_ok_iff {s : ServiceId} {node : Node} {σ σ' : State} :
    qfirst s σ = .ok (node, σ') ↔
      (∃ x, σ.service s = some x) ∧ node = σ.links.p2 (.head s) ∧ σ' = σ := by
  simp only [qfirst, Queue.qfirst, bind_ok_iff, get_ok_iff, readService_ok_iff, pure_ok_iff]
  grind

theorem qappend_ok_iff {s : ServiceId} {node : Node} {u : PUnit} {σ σ' : State} :
    qappend s node σ = .ok (u, σ') ↔ σ.Linkable s node ∧ σ' = σ.link s node := by
  simp only [qappend, bind_ok_iff, get_ok_iff]
  constructor
  · rintro ⟨_, _, ⟨rfl, rfl⟩, rest⟩
    split at rest
    · simp only [set_ok_iff] at rest
      simp_all [State.Linkable, State.link, Queue.qappend_eq, Queue.qlast, Queue.qnext]
    · simp [throw_ok_iff] at rest
  · rintro ⟨linkable, rfl⟩
    refine ⟨σ, σ, ⟨rfl, rfl⟩, ?_⟩
    simp_all [State.Linkable, State.link, set_ok_iff, Queue.qappend_eq, Queue.qlast, Queue.qnext]

theorem qdelete_ok_iff {node : Node} {u : PUnit} {σ σ' : State} :
    qdelete node σ = .ok (u, σ') ↔ σ.Unlinkable node ∧ σ' = σ.unlink node := by
  simp only [qdelete, bind_ok_iff, get_ok_iff]
  constructor
  · rintro ⟨_, _, ⟨rfl, rfl⟩, rest⟩
    split at rest
    · simp only [set_ok_iff] at rest
      simp_all [State.Unlinkable, State.unlink, Queue.qdelete_eq, Queue.qprev, Queue.qnext]
    · simp [throw_ok_iff] at rest
  · rintro ⟨unlinkable, rfl⟩
    refine ⟨σ, σ, ⟨rfl, rfl⟩, ?_⟩
    simp_all [State.Unlinkable, State.unlink, set_ok_iff, Queue.qdelete_eq, Queue.qprev,
      Queue.qnext]

theorem nodeTran_ok_iff {node : Node} {t : TranId} {σ σ' : State} :
    nodeTran node σ = .ok (t, σ') ↔ node = .tran t ∧ σ' = σ := by
  cases node <;> simp only [nodeTran, throw_ok_iff, pure_ok_iff] <;> grind

theorem nodeAdvert_ok_iff {node : Node} {a : AdvertId} {σ σ' : State} :
    nodeAdvert node σ = .ok (a, σ') ↔ node = .adv a ∧ σ' = σ := by
  cases node <;> simp only [nodeAdvert, throw_ok_iff, pure_ok_iff] <;> grind

/-! ## Connection output and input -/

@[simp] theorem State.write_client (σ : State) (c : ClientId) (bytes : Bytes) :
    (σ.write c bytes).client = σ.client := rfl

theorem State.write_write (σ : State) (c : ClientId) (first second : Bytes) :
    (σ.write c first).write c second = σ.write c (first ++ second) := by
  simp only [State.write, ↓reduceIte, List.append_assoc]
  congr 1
  funext k
  split <;> simp_all

theorem State.write_sent_congr {σ τ : State} (same : σ.sent = τ.sent) (c : ClientId)
    (bytes : Bytes) :
    (σ.write c bytes).sent = (τ.write c bytes).sent := by
  simp only [State.write, same]

theorem svrwrite_ok_iff {c : ClientId} {bytes : Bytes} {u : PUnit} {σ σ' : State} :
    svrwrite c bytes σ = .ok (u, σ') ↔
      (∃ x, σ.client c = some x) ∧ σ' = σ.write c bytes := by
  simp [svrwrite, bind_ok_iff, modify_ok_iff, readClient_ok_iff]

theorem svrwriteb_ok_iff {c : ClientId} {val : Byte} {u : PUnit} {σ σ' : State} :
    svrwriteb c val σ = .ok (u, σ') ↔ (∃ x, σ.client c = some x) ∧ σ' = σ.write c [val] :=
  svrwrite_ok_iff

theorem write_seq_ok_iff {c : ClientId} {first second : Bytes} {one two : M PUnit} {u : PUnit}
    {σ σ' : State}
    (oneOk : ∀ {u σ σ'}, one σ = .ok (u, σ') ↔
      (∃ x, σ.client c = some x) ∧ σ' = σ.write c first)
    (twoOk : ∀ {u σ σ'}, two σ = .ok (u, σ') ↔
      (∃ x, σ.client c = some x) ∧ σ' = σ.write c second) :
    (one >>= fun _ => two) σ = .ok (u, σ') ↔
      (∃ x, σ.client c = some x) ∧ σ' = σ.write c (first ++ second) := by
  simp only [bind_ok_iff, oneOk, twoOk]
  constructor
  · rintro ⟨_, _, ⟨live, rfl⟩, _, rfl⟩
    exact ⟨live, σ.write_write c first second⟩
  · rintro ⟨live, rfl⟩
    exact ⟨⟨⟩, _, ⟨live, rfl⟩, live, (σ.write_write c first second).symm⟩

theorem svrwrites_ok_iff {c : ClientId} {val : BitVec 16} {u : PUnit} {σ σ' : State} :
    svrwrites c val σ = .ok (u, σ') ↔
      (∃ x, σ.client c = some x) ∧ σ' = σ.write c (shortBytes val) :=
  write_seq_ok_iff svrwriteb_ok_iff svrwriteb_ok_iff

theorem svrwritel_ok_iff {c : ClientId} {val : BitVec 64} {u : PUnit} {σ σ' : State} :
    svrwritel c val σ = .ok (u, σ') ↔
      (∃ x, σ.client c = some x) ∧ σ' = σ.write c (longBytes val) :=
  write_seq_ok_iff svrwrites_ok_iff svrwrites_ok_iff

/-- Nothing is being read from the connection: what `svriowait` asserts. -/
def Client.Idle (x : Client) : Prop :=
  x.handler = none ∧ x.input = none ∧ x.used = 0

/-- Start reading into a buffer. -/
def State.arm (σ : State) (c : ClientId) (handler : Handler) (b : BufId) : State :=
  σ.mapClient c fun x => { x with handler := some handler, input := some b, used := 0 }

/-- Start reading the next command. -/
def State.nextCommand (σ : State) (c : ClientId) : State :=
  (σ.allocBuf [0]).arm c .command σ.next

theorem svriowait_ok_iff {c : ClientId} {b : BufId} {handler : Handler}
    {func : ClientId → BufId → M PUnit} {u : PUnit} {σ σ' : State} :
    svriowait c b handler func σ = .ok (u, σ') ↔
      ∃ x contents, σ.client c = some x ∧ x.Idle ∧ σ.buf b = some contents ∧
        (contents ≠ [] ∧ σ' = σ.arm c handler b ∨
          contents = [] ∧ func c b (σ.observe (.handled c handler [])) = .ok (u, σ')) := by
  simp only [svriowait, bind_ok_iff, readClient_ok_iff]
  constructor
  · rintro ⟨x, _, ⟨live, rfl⟩, rest⟩
    split at rest
    · simp [throw_ok_iff] at rest
    · rename_i busy
      simp only [bind_ok_iff, readBuf_ok_iff] at rest
      obtain ⟨contents, _, ⟨found, rfl⟩, rest⟩ := rest
      refine ⟨x, contents, live, ?_, found, ?_⟩
      · simp only [Bool.or_eq_true, Option.isSome_iff_ne_none, bne_iff_ne, not_or] at busy
        exact ⟨not_not.mp busy.1.1, not_not.mp busy.1.2, not_not.mp busy.2⟩
      · cases contents with
        | nil =>
            simp only [List.length_nil, ne_eq, not_true_eq_false, ↓reduceIte, bind_ok_iff,
              observe_ok_iff] at rest
            simpa using rest
        | cons byte contents =>
            rw [if_pos (by simp), modifyClient_ok_iff] at rest
            exact .inl ⟨by simp, rest.2⟩
  · rintro ⟨x, contents, live, ⟨h1, h2, h3⟩, found, outcome⟩
    refine ⟨x, σ, ⟨live, rfl⟩, ?_⟩
    rw [h1, h2, h3]
    simp only [Option.isSome_none, Bool.or_self, bne_self_eq_false, Bool.false_eq_true,
      ↓reduceIte, bind_ok_iff, readBuf_ok_iff]
    refine ⟨contents, σ, ⟨found, rfl⟩, ?_⟩
    rcases outcome with ⟨full, rfl⟩ | ⟨rfl, called⟩
    · simp [full, modifyClient_ok_iff, live, State.arm]
    · simp only [List.length_nil, ne_eq, not_true_eq_false, ↓reduceIte, bind_ok_iff,
        observe_ok_iff]
      exact ⟨⟨⟩, _, rfl, called⟩

/-- `svriowait` calls its function at once when there is nothing to read. -/
theorem svriowait_of_empty {c : ClientId} {b : BufId} {handler : Handler}
    {func : ClientId → BufId → M PUnit} {x : Client} {σ : State} (live : σ.client c = some x)
    (idle : x.Idle) (room : σ.buf b = some []) :
    svriowait c b handler func σ = func c b (σ.observe (.handled c handler [])) := by
  obtain ⟨resting, unread, unused⟩ := idle
  unfold svriowait
  rw [bind_of_ok (readClient_ok_iff.mpr ⟨live, rfl⟩), if_neg (by simp [resting, unread, unused]),
    bind_of_ok (readBuf_ok_iff.mpr ⟨room, rfl⟩), if_neg (by simp)]
  exact seq_of_ok (observe_ok_iff.mpr rfl)

theorem svrNextCommand_ok_iff {c : ClientId} {u : PUnit} {σ σ' : State} :
    svrNextCommand c σ = .ok (u, σ') ↔
      (∃ x, σ.client c = some x ∧ x.Idle) ∧ σ' = σ.nextCommand c := by
  simp only [svrNextCommand, bind_ok_iff, tpalloc_ok_iff]
  constructor
  · rintro ⟨b, _, ⟨impossible, _⟩ | ⟨_, rfl, rfl⟩, rest⟩
    · omega
    · simp only [svriowait_ok_iff] at rest
      obtain ⟨x, contents, live, idle, found, ⟨_, rfl⟩ | ⟨rfl, _⟩⟩ := rest
      · exact ⟨⟨x, live, idle⟩, rfl⟩
      · simp [State.allocBuf, put] at found
  · rintro ⟨⟨x, live, idle⟩, rfl⟩
    refine ⟨some σ.next, _, .inr ⟨by omega, rfl, rfl⟩, ?_⟩
    simp only [svriowait_ok_iff]
    exact ⟨x, [0], live, idle, by simp [State.allocBuf, put], .inl ⟨by simp, rfl⟩⟩

theorem answer_ok_iff {c : ClientId} {code : BitVec 16} {u : PUnit} {σ σ' : State} :
    (svrwrites c code >>= fun _ => svrNextCommand c) σ = .ok (u, σ') ↔
      (∃ x, σ.client c = some x ∧ x.Idle) ∧ σ' = (σ.write c (shortBytes code)).nextCommand c := by
  simp only [bind_ok_iff, svrwrites_ok_iff, svrNextCommand_ok_iff, and_assoc, exists_and_left,
    exists_eq_left, exists_const, State.write_client]
  constructor
  · exact And.right
  · rintro ⟨⟨x, live, idle⟩, rfl⟩
    exact ⟨⟨x, live⟩, ⟨x, live, idle⟩, rfl⟩

/-! ## Transactions -/

/-- The client behind a transaction's executor link. -/
def State.worker (σ : State) (tr : Transaction) : Option ClientId :=
  tr.executor.bind fun a => (σ.advert a).map Advert.client

/-- Take a transaction off a client's queues. -/
def Client.dequeue (x : Client) (t : TranId) : Client :=
  { x with requests := x.requests.erase t, replies := x.replies.erase t }

/-- Forget a transaction that is going away. -/
def Client.forget (x : Client) (t : TranId) : Client :=
  { x with wait4 := if x.wait4 = some (.tran t) then none else x.wait4 }

/-- What the deletion of transaction `t` leaves of client `c`. -/
def State.bereave (σ : State) (t : TranId) (tr : Transaction) (c : ClientId) (x : Client) :
    Client :=
  { x with
    requests := if c = tr.client then x.requests.erase t else x.requests
    replies := if c = tr.client then x.replies.erase t else x.replies
    wait4 :=
      if x.wait4 = some (.tran t) ∧ (c = tr.client ∨ σ.worker tr = some c) then none
      else x.wait4 }

/-- The state after the deletion of transaction `t`. -/
def State.delTran (σ : State) (t : TranId) (tr : Transaction) : State :=
  { σ with
    client := fun c => (σ.client c).map (σ.bereave t tr c)
    links := σ.links.delete (.tran t)
    buf := put σ.buf tr.data none
    transactions := σ.transactions.erase t
    tran := put σ.tran t none }

/-- `del_transaction` meets only allocated objects. -/
structure State.Deletable (σ : State) (t : TranId) (tr : Transaction) : Prop where
  live : σ.tran t = some tr
  owner : ∃ x, σ.client tr.client = some x
  unlinkable : σ.Unlinkable (.tran t)
  executor : ∀ a, tr.executor = some a →
    ∃ v, σ.advert a = some v ∧ ∃ x, σ.client v.client = some x
  data : ∃ contents, σ.buf tr.data = some contents

theorem clearWait_ok_iff {c : ClientId} {t : TranId} {u : PUnit} {σ σ' : State} :
    clearWait c t σ = .ok (u, σ') ↔
      (∃ x, σ.client c = some x) ∧ σ' = σ.mapClient c (Client.forget · t) :=
  modifyClient_ok_iff

theorem clearWorker_ok_iff {t : TranId} {tr : Transaction} {u : PUnit} {σ σ' : State} :
    clearWorker tr t σ = .ok (u, σ') ↔
      (∀ a, tr.executor = some a → ∃ v, σ.advert a = some v ∧ ∃ x, σ.client v.client = some x) ∧
        σ' = match σ.worker tr with
          | none => σ
          | some w => σ.mapClient w (Client.forget · t) := by
  unfold clearWorker
  cases exec : tr.executor with
  | none => simp [State.worker, exec, pure_ok_iff]
  | some a =>
      simp only [bind_ok_iff, readAdvert_ok_iff, clearWait_ok_iff, State.worker, exec]
      constructor
      · rintro ⟨v, _, ⟨found, rfl⟩, live, rfl⟩
        exact ⟨by grind, by simp [found]⟩
      · rintro ⟨allocated, rfl⟩
        obtain ⟨v, found, live⟩ := allocated a rfl
        exact ⟨v, σ, ⟨found, rfl⟩, live, by simp [found]⟩

theorem State.bereave_eq (σ : State) (t : TranId) (tr : Transaction) (c : ClientId) (x : Client) :
    σ.bereave t tr c x =
      let y := if c = tr.client then (x.dequeue t).forget t else x
      if σ.worker tr = some c then y.forget t else y := by
  cases x
  simp only [State.bereave, Client.dequeue, Client.forget]
  grind

theorem State.delTran_eq (σ : State) (t : TranId) (tr : Transaction) :
    σ.delTran t tr =
      let σ := ((σ.mapClient tr.client (Client.dequeue · t)).unlink (.tran t)).mapClient tr.client
        (Client.forget · t)
      let σ := match σ.worker tr with
        | none => σ
        | some w => σ.mapClient w (Client.forget · t)
      (σ.freeBuf tr.data).dropTran t := by
  have same : (((σ.mapClient tr.client (Client.dequeue · t)).unlink (.tran t)).mapClient tr.client
      (Client.forget · t)).worker tr = σ.worker tr := rfl
  have clients : (fun c => (σ.client c).map (σ.bereave t tr c)) =
      (match σ.worker tr with
        | none => ((σ.mapClient tr.client (Client.dequeue · t)).mapClient tr.client
            (Client.forget · t))
        | some w => ((σ.mapClient tr.client (Client.dequeue · t)).mapClient tr.client
            (Client.forget · t)).mapClient w (Client.forget · t)).client := by
    funext c
    cases worker : σ.worker tr <;> cases found : σ.client c <;>
      simp [State.mapClient, change, found, State.bereave_eq, worker] <;> grind
  simp only [same]
  cases worker : σ.worker tr with
  | none =>
      simp only [worker] at clients
      simp only [State.delTran, clients]
      rfl
  | some w =>
      simp only [worker] at clients
      simp only [State.delTran, clients]
      rfl

theorem delTransaction_ok_iff {t : TranId} {u : PUnit} {σ σ' : State} :
    delTransaction t σ = .ok (u, σ') ↔ ∃ tr, σ.Deletable t tr ∧ σ' = σ.delTran t tr := by
  simp only [delTransaction, delTransactionWith, Release.plain_tran,
    bind_ok_iff, readTran_ok_iff, modifyClient_ok_iff, qdelete_ok_iff,
    clearWait_ok_iff, clearWorker_ok_iff, tpfree_ok_iff, modify_ok_iff]
  constructor
  · rintro ⟨tr, _, ⟨live, rfl⟩, _, _, ⟨owner, rfl⟩, _, _, ⟨unlinkable, rfl⟩, _, _, ⟨_, rfl⟩,
      _, _, ⟨executor, rfl⟩, _, _, ⟨data, rfl⟩, rfl⟩
    refine ⟨tr, ⟨live, owner, unlinkable, ?_, ?_⟩, (State.delTran_eq _ t tr).symm⟩
    · intro a exec
      obtain ⟨v, found, y, seen⟩ := executor a exec
      refine ⟨v, found, ?_⟩
      simp only [State.mapClient, State.unlink, change] at seen
      grind
    · grind [State.mapClient, State.unlink]
  · rintro ⟨tr, ⟨live, ⟨x, owner⟩, unlinkable, executor, data⟩, rfl⟩
    refine ⟨tr, σ, ⟨live, rfl⟩, ⟨⟩, _, ⟨⟨x, owner⟩, rfl⟩, ⟨⟩, _, ⟨unlinkable, rfl⟩, ⟨⟩, _,
      ⟨⟨x.dequeue t, ?_⟩, rfl⟩, ⟨⟩, _, ⟨?_, rfl⟩, ⟨⟩, _, ⟨?_, rfl⟩, σ.delTran_eq t tr⟩
    · simp [State.mapClient, State.unlink, change, owner, Client.dequeue]
    · intro a exec
      obtain ⟨v, found, y, seen⟩ := executor a exec
      refine ⟨v, found, ?_⟩
      simp only [State.mapClient, State.unlink, change]
      grind
    · grind [State.mapClient, State.unlink]

/-- Take a finished transaction from the requests to the replies of its client. -/
def State.requeue (σ : State) (t : TranId) (tr : Transaction) : State :=
  σ.mapClient tr.client fun x =>
    { x with requests := x.requests.erase t, replies := x.replies.erase t ++ [t] }

theorem queueReply_ok_iff {t : TranId} {u : PUnit} {σ σ' : State} :
    queueReply t σ = .ok (u, σ') ↔
      ∃ tr x, σ.tran t = some tr ∧ σ.client tr.client = some x ∧ σ' = σ.requeue t tr := by
  simp only [queueReply, bind_ok_iff, readTran_ok_iff, modifyClient_ok_iff]
  constructor
  · rintro ⟨tr, _, ⟨live, rfl⟩, ⟨x, owner⟩, rfl⟩
    exact ⟨tr, x, live, owner, rfl⟩
  · rintro ⟨tr, x, live, owner, rfl⟩
    exact ⟨tr, σ, ⟨live, rfl⟩, ⟨x, owner⟩, rfl⟩

/-- Who submitted the transaction, to which service, and under which descriptor. -/
def Transaction.place (tr : Transaction) : ClientId × ServiceId × BitVec 16 :=
  (tr.client, tr.svc, tr.cd)

theorem client_of_place {tr tr' : Transaction} (same : tr.place = tr'.place) :
    tr.client = tr'.client :=
  congrArg Prod.fst same

theorem cd_of_place {tr tr' : Transaction} (same : tr.place = tr'.place) : tr.cd = tr'.cd :=
  congrArg (·.2.2) same

/-- The bytes `snd_reply` writes. -/
def replyFrame (tr : Transaction) (contents : Bytes) : Bytes :=
  [tr.rval.setWidth 8] ++ shortBytes tr.cd ++ longBytes tr.rcode ++
    longBytes ((BitVec.ofNat 32 contents.length).signExtend 64) ++ contents

/-- The state after `snd_reply`. -/
def State.reply (σ : State) (t : TranId) (tr : Transaction) (contents : Bytes) : State :=
  (((σ.write tr.client (replyFrame tr contents)).nextCommand tr.client).mapClient tr.client
    fun x => { x with wait4 := none }).delTran t tr

theorem State.deletable_mapClient_iff {σ : State} {t : TranId} {tr : Transaction} {k : ClientId}
    {update : Client → Client} : (σ.mapClient k update).Deletable t tr ↔ σ.Deletable t tr := by
  constructor
  · rintro ⟨live, owner, unlinkable, executor, data⟩
    exact ⟨live, exists_change_eq_some_iff.mp owner, unlinkable,
      fun a exec => (executor a exec).imp fun v seen =>
        ⟨seen.1, exists_change_eq_some_iff.mp seen.2⟩, data⟩
  · rintro ⟨live, owner, unlinkable, executor, data⟩
    exact ⟨live, exists_change_eq_some_iff.mpr owner, unlinkable,
      fun a exec => (executor a exec).imp fun v seen =>
        ⟨seen.1, exists_change_eq_some_iff.mpr seen.2⟩, data⟩

theorem State.deletable_write_iff {σ : State} {t : TranId} {tr : Transaction} {k : ClientId}
    {bytes : Bytes} : (σ.write k bytes).Deletable t tr ↔ σ.Deletable t tr :=
  ⟨fun ⟨live, owner, unlinkable, executor, data⟩ => ⟨live, owner, unlinkable, executor, data⟩,
    fun ⟨live, owner, unlinkable, executor, data⟩ => ⟨live, owner, unlinkable, executor, data⟩⟩

theorem State.deletable_nextCommand_iff {σ : State} {t : TranId} {tr : Transaction} {k : ClientId}
    (data : ∃ contents, σ.buf tr.data = some contents) :
    (σ.nextCommand k).Deletable t tr ↔ σ.Deletable t tr := by
  refine State.deletable_mapClient_iff.trans ⟨?_, ?_⟩
  · rintro ⟨live, owner, unlinkable, executor, _⟩
    exact ⟨live, owner, unlinkable, executor, data⟩
  · rintro ⟨live, owner, unlinkable, executor, _⟩
    refine ⟨live, owner, unlinkable, executor, ?_⟩
    simp only [State.allocBuf, put]
    grind

theorem sndReply_ok_iff {t : TranId} {u : PUnit} {σ σ' : State} :
    sndReply t σ = .ok (u, σ') ↔
      ∃ tr contents x, σ.Deletable t tr ∧ σ.buf tr.data = some contents ∧
        σ.client tr.client = some x ∧ x.Idle ∧ σ' = σ.reply t tr contents := by
  simp only [sndReply, sndReplyWith, delTransactionWith_plain,
    bind_ok_iff, readTran_ok_iff, readBuf_ok_iff, svrwriteb_ok_iff,
    svrwrites_ok_iff, svrwritel_ok_iff, svrwrite_ok_iff, svrNextCommand_ok_iff,
    modifyClient_ok_iff, delTransaction_ok_iff, and_assoc, exists_and_left, exists_eq_left,
    exists_const, State.write_write, State.write_client, State.deletable_mapClient_iff]
  constructor
  · rintro ⟨tr, live, contents, data, _, _, _, _, _, ⟨x, owner, idle⟩, _, tr', deletable, rfl⟩
    obtain rfl : tr = tr' := Option.some.inj (live.symm.trans deletable.live)
    refine ⟨tr, ?_, contents, data, x, owner, idle, ?_⟩
    · refine State.deletable_write_iff.mp ((State.deletable_nextCommand_iff ?_).mp deletable)
      exact ⟨contents, data⟩
    · simp only [State.reply, replyFrame, List.append_assoc]
  · rintro ⟨tr, deletable, contents, data, x, owner, idle, rfl⟩
    have armed : ∀ bytes, ∃ y, ((σ.write tr.client bytes).nextCommand tr.client).client tr.client =
        some y := by
      simp [State.nextCommand, State.arm, State.allocBuf, State.mapClient, change, owner]
    refine ⟨tr, deletable.live, contents, data, ⟨x, owner⟩, ⟨x, owner⟩, ⟨x, owner⟩, ⟨x, owner⟩,
      ⟨x, owner⟩, ⟨x, owner, idle⟩, armed _, tr, ?_, ?_⟩
    · refine (State.deletable_nextCommand_iff ?_).mpr (State.deletable_write_iff.mpr deletable)
      exact ⟨contents, data⟩
    · simp only [State.reply, replyFrame, List.append_assoc]

/-! ## Dispatch -/

/-- Take advertisements out of the wait queues, one after the other. -/
def State.dismiss (σ : State) (adverts : List AdvertId) : State :=
  { σ with links := adverts.foldl (fun links a => links.delete (.adv a)) σ.links }

/-- `remove_from_waitq` meets only allocated objects on its way. -/
def State.Dismissable (σ : State) : List AdvertId → Prop
  | [] => True
  | a :: adverts => σ.Unlinkable (.adv a) ∧ (σ.unlink (.adv a)).Dismissable adverts

theorem forM_removeFromWaitq_ok_iff {adverts : List AdvertId} {u : PUnit} {σ σ' : State} :
    adverts.forM removeFromWaitq σ = .ok (u, σ') ↔
      σ.Dismissable adverts ∧ σ' = σ.dismiss adverts := by
  induction adverts generalizing σ with
  | nil => simp [State.Dismissable, State.dismiss, pure_ok_iff]
  | cons a adverts ih =>
      change (removeFromWaitq a >>= fun _ => adverts.forM removeFromWaitq) σ = .ok (u, σ') ↔ _
      simp only [bind_ok_iff, removeFromWaitq, qdelete_ok_iff, and_assoc, exists_and_left,
        exists_eq_left, exists_const]
      rw [ih, State.Dismissable, and_assoc]
      rfl

/-- The bytes `send_to_server` writes. -/
def workFrame (v : Advert) (tr : Transaction) (svcname contents : Bytes) : Bytes :=
  longBytes v.opaqueFunc ++ svcname ++ longBytes (BitVec.ofNat 64 contents.length) ++
    longBytes tr.flags ++ shortBytes tr.cd ++ contents

/-- Transaction meet worker, worker meet transaction. -/
def State.assign (σ : State) (a : AdvertId) (v : Advert) (t : TranId) (frame : Bytes) : State :=
  ((((σ.mapClient v.client fun x => { x with wait4 := some (.tran t) }).mapTran t
    fun tr => { tr with executor := some a }).observe (.dispatched a v.client t)).write v.client
      frame).nextCommand v.client

theorem sendToServer_ok_iff {env : Env} {a : AdvertId} {t : TranId} {u : PUnit} {σ σ' : State} :
    sendToServer env a t σ = .ok (u, σ') ↔
      ∃ v x tr svc contents, σ.advert a = some v ∧ σ.client v.client = some x ∧ x.Idle ∧
        σ.Dismissable (env.walk x.adverts) ∧ σ.tran t = some tr ∧ σ.service tr.svc = some svc ∧
        σ.buf tr.data = some contents ∧
        σ' = (σ.dismiss (env.walk x.adverts)).assign a v t
          (workFrame v tr svc.svcname contents) := by
  simp only [sendToServer, bind_ok_iff, readAdvert_ok_iff, readClient_ok_iff,
    forM_removeFromWaitq_ok_iff, modifyClient_ok_iff, modifyTran_ok_iff, observe_ok_iff,
    readTran_ok_iff, readService_ok_iff, readBuf_ok_iff, svrwrites_ok_iff, svrwritel_ok_iff,
    svrwrite_ok_iff, svrNextCommand_ok_iff, and_assoc, exists_and_left, exists_eq_left,
    exists_const, State.write_write, State.write_client]
  constructor
  · rintro ⟨v, found, x, worker, dismissable, _, ⟨tr, live⟩, _, tr', live', svc, offered, _,
      contents, data, _, _, _, _, ⟨y, worker', idle⟩, rfl⟩
    obtain ⟨_, live'', rfl⟩ := change_eq_some_iff.mp live'
    obtain rfl := Option.some.inj (live.symm.trans live'')
    obtain ⟨_, worker'', rfl⟩ := change_eq_some_iff.mp worker'
    obtain rfl := Option.some.inj (worker.symm.trans worker'')
    simp only [↓reduceIte] at offered data idle
    refine ⟨v, found, x, worker, idle, dismissable, tr, live, svc, offered, contents, data, ?_⟩
    simp only [State.assign, workFrame, ↓reduceIte, List.append_assoc]
  · rintro ⟨v, found, x, worker, idle, dismissable, tr, live, svc, offered, contents, data, rfl⟩
    have worker' : ∃ y, ((((σ.dismiss (env.walk x.adverts)).mapClient v.client fun x =>
        { x with wait4 := some (.tran t) }).mapTran t fun tr =>
          { tr with executor := some a }).observe (.dispatched a v.client t)).client v.client =
            some y ∧ y.Idle :=
      ⟨_, change_eq_some_iff.mpr ⟨x, worker, rfl⟩, by rw [if_pos rfl]; exact idle⟩
    have served : ∃ y, ((((σ.dismiss (env.walk x.adverts)).mapClient v.client fun x =>
        { x with wait4 := some (.tran t) }).mapTran t fun tr =>
          { tr with executor := some a }).observe (.dispatched a v.client t)).client v.client =
            some y :=
      worker'.imp fun _ => And.left
    refine ⟨v, found, x, worker, dismissable, ⟨x, worker⟩, ⟨tr, live⟩, served, _,
      change_eq_some_iff.mpr ⟨tr, live, rfl⟩, svc, by rw [if_pos rfl]; exact offered,
      served, contents, by rw [if_pos rfl]; exact data, served, served, served, served, worker', ?_⟩
    simp only [State.assign, workFrame, ↓reduceIte, List.append_assoc]

end Switchboard
end Xatmi
