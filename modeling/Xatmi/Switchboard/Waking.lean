import Xatmi.Switchboard.Awaiting
import Xatmi.Switchboard.Cascade
import Xatmi.Switchboard.Intake
import Xatmi.Switchboard.Returning

/-!
# Waking waiting clients

A transaction is finished by `part2`, or by `del_client` when its worker is deleted. Either looks
whether the client that submitted the transaction is waiting for it; but a client that waits for any
reply is recognised by the address of a sentinel, and `del_client` compares with a sentinel of its
own.
-/

namespace Xatmi
namespace Switchboard

open Program

variable {σ₀ σ τ : State} {e : Event} {φ φ' : Phase} {c k : ClientId}

/-! ## Replies that nobody takes -/

/-- Client `c` executes a transaction of another client that waits for any reply. -/
def State.Overlooks (σ : State) (c : ClientId) (tr : Transaction) : Prop :=
  σ.worker tr = some c ∧ tr.client ≠ c ∧ ∃ y ∈ σ.client tr.client, y.wait4 = some .any

instance (σ : State) (c : ClientId) (tr : Transaction) : Decidable (σ.Overlooks c tr) :=
  inferInstanceAs (Decidable (_ ∧ _))

/-- No worker is deleted while it executes a transaction of another client that waits for any
reply. -/
def SparesWaiters (σ : State) (e : Event) : Prop :=
  ∀ c ∈ σ.clients, Closes σ e c → ∀ x ∈ σ.client c, ∀ t ∈ x.serves, ∀ tr ∈ σ.tran t,
    ¬σ.Overlooks c tr

instance (σ : State) (e : Event) : Decidable (SparesWaiters σ e) :=
  inferInstanceAs (Decidable (∀ c ∈ σ.clients, Closes σ e c → ∀ x ∈ σ.client c, ∀ t ∈ x.serves,
    ∀ tr ∈ σ.tran t, ¬σ.Overlooks c tr))

/-- A client that waits for any reply has none, and the transaction that is taken from a client
being deleted is not one of its. -/
structure Awake (φ : Phase) (σ : State) : Prop where
  empty : ∀ k y, σ.client k = some y → y.wait4 = some .any → y.replies = []
  failed : ∀ c t tr y, φ.closing = some c → φ.fin = some t → σ.tran t = some tr →
    σ.client tr.client = some y → y.wait4 ≠ some .any

namespace Awake

theorem mono (inv : Awake φ σ)
    (client : ∀ k y, τ.client k = some y → y.wait4 = some .any →
      ∃ x, σ.client k = some x ∧ x.wait4 = some .any ∧ (x.replies = [] → y.replies = []))
    (tran : ∀ t tr, τ.tran t = some tr → φ'.closing ≠ none → φ'.fin = some t →
      ∃ tr', σ.tran t = some tr' ∧ tr'.client = tr.client)
    (closing : ∀ c t, φ'.closing = some c → φ'.fin = some t → φ.closing = some c ∧ φ.fin = some t) :
    Awake φ' τ := by
  constructor
  · intro k y live any
    obtain ⟨x, live', any', replies⟩ := client k y live any
    exact replies (inv.empty k x live' any')
  · intro c t tr y closes fin found owner any
    obtain ⟨closes', fin'⟩ := closing c t closes fin
    obtain ⟨tr', found', same⟩ := tran t tr found (by simp [closes]) fin
    obtain ⟨x, live', any', _⟩ := client _ y owner any
    exact inv.failed c t tr' x closes' fin' found' (same ▸ live') any'

/-- What touches neither transactions nor what clients wait for and have. -/
theorem congr (inv : Awake φ σ)
    (client : ∀ k, (τ.client k).map (fun x => (x.wait4, x.replies)) =
      (σ.client k).map fun x => (x.wait4, x.replies))
    (tran : ∀ t, (τ.tran t).map Transaction.client = (σ.tran t).map Transaction.client)
    (closing : ∀ c t, φ'.closing = some c → φ'.fin = some t → φ.closing = some c ∧ φ.fin = some t) :
    Awake φ' τ := by
  refine inv.mono ?_ ?_ closing
  · intro k y live any
    obtain ⟨x, live', same⟩ := exists_of_map_eq (client k) live
    obtain ⟨wait, replies⟩ := Prod.mk.inj same
    exact ⟨x, live', wait.trans any, fun none_ => replies ▸ none_⟩
  · intro t tr found _ _
    exact exists_of_map_eq (tran t) found

theorem phase (inv : Awake φ σ)
    (closing : ∀ c t, φ'.closing = some c → φ'.fin = some t → φ.closing = some c ∧ φ.fin = some t) :
    Awake φ' σ :=
  inv.congr (fun _ => rfl) (fun _ => rfl) closing

theorem mapClient (inv : Awake φ σ) {key : ClientId} {update : Client → Client}
    (keeps : ∀ x, σ.client key = some x → (update x).wait4 = some .any → x.wait4 = some .any ∧
      (x.replies = [] → (update x).replies = [])) : Awake φ (σ.mapClient key update) := by
  refine inv.mono ?_ (fun t tr found _ _ => ⟨tr, found, rfl⟩) fun _ _ => And.intro
  intro k y live any
  obtain ⟨x, live', rfl⟩ := change_eq_some_iff.mp live
  refine ⟨x, live', ?_⟩
  split at any
  · rename_i here
    subst here
    rw [if_pos rfl]
    exact keeps x live' any
  · rename_i elsewhere
    rw [if_neg elsewhere]
    exact ⟨any, id⟩

theorem nextCommand (inv : Awake φ σ) (c : ClientId) : Awake φ (σ.nextCommand c) :=
  inv.congr (fun _ => change_map fun _ => rfl) (fun _ => rfl) fun _ _ => And.intro

theorem mapTran (inv : Awake φ σ) {t : TranId} {update : Transaction → Transaction}
    (client : ∀ tr, (update tr).client = tr.client) : Awake φ (σ.mapTran t update) :=
  inv.congr (fun _ => rfl) (fun _ => change_map client) fun _ _ => And.intro

theorem delTran (inv : Awake φ σ) (t : TranId) (tr : Transaction) : Awake φ (σ.delTran t tr) := by
  refine inv.mono ?_ ?_ fun _ _ => And.intro
  · intro k y live any
    obtain ⟨x, live', rfl⟩ := Option.map_eq_some_iff.mp live
    simp only [State.bereave] at any
    split at any
    · cases any
    · refine ⟨x, live', any, fun none_ => ?_⟩
      simp [State.bereave, none_]
  · intro t' tr' found _ _
    exact ⟨tr', (put_none_eq_some_iff.mp found).2, rfl⟩

theorem reply (inv : Awake φ σ) (t : TranId) (tr : Transaction) (contents : Bytes) :
    Awake φ (σ.reply t tr contents) := by
  have written : Awake φ (σ.write tr.client (replyFrame tr contents)) :=
    inv.congr (fun _ => rfl) (fun _ => rfl) fun _ _ => And.intro
  refine delTran ?_ t tr
  exact (written.nextCommand tr.client).mapClient fun x _ any => nomatch any

theorem assign (inv : Awake φ σ) (a : AdvertId) (v : Advert) (t : TranId) (frame : Bytes) :
    Awake φ (σ.assign a v t frame) := by
  have serving : Awake φ (σ.mapClient v.client fun x => { x with wait4 := some (.tran t) }) :=
    inv.mapClient fun x _ any => nomatch any
  have given : Awake φ ((σ.mapClient v.client fun x => { x with wait4 := some (.tran t) }).mapTran
    t fun tr =>
      { tr with executor := some a }) := serving.mapTran fun _ => rfl
  refine nextCommand ?_ v.client
  exact given.congr (fun _ => rfl) (fun _ => rfl) fun _ _ => And.intro

theorem finish (inv : Awake φ σ) (c : ClientId) (t : TranId) {result : Transaction → Transaction}
    (client : ∀ tr, (result tr).client = tr.client) : Awake φ (σ.finish c t result) := by
  have free : Awake φ (σ.mapClient c fun x => { x with wait4 := none }) :=
    inv.mapClient fun x _ any => nomatch any
  exact free.mapTran client

theorem effect (inv : Awake φ σ) (all : Inv ⟨φ, σ⟩)
    (trace : Trace σ₀ e ⟨{}, σ₀⟩ ⟨φ, σ⟩) (spares : SparesWaiters σ₀ e)
    (eff : Effect σ₀ e ⟨φ, σ⟩ ⟨φ', τ⟩) : Awake φ' τ := by
  have phases : φ.Ok := all.phases
  have runs : ∀ {c}, φ.run = some c → φ.closing = none := fun running => by
    by_contra closes
    obtain ⟨k, closes⟩ := Option.ne_none_iff_exists'.mp closes
    simp [(phases.closing k closes).1] at running
  cases eff with
  | connect =>
      refine nextCommand ?_ _
      refine inv.mono ?_ (fun t tr found _ _ => ⟨tr, found, rfl⟩) fun _ _ => And.intro
      intro k y live any
      rcases put_eq_some_iff.mp live with ⟨_, made⟩ | ⟨_, live⟩
      · rw [← Option.some.inj made] at any
        cases any
      · exact ⟨y, live, any, id⟩
  | call | write | release | resize | enqueue | park | found | dropService | dropAdvert
  | orphan | rest | spare =>
      exact inv.congr (fun _ => rfl) (fun _ => rfl) fun _ _ => And.intro
  | fill | armHeader | next | armUpload | armReturn | detach | offer =>
      exact inv.congr (fun _ => change_map fun _ => rfl) (fun _ => rfl) fun _ _ => And.intro
  | begin =>
      exact inv.congr (fun _ => change_map fun _ => rfl) (fun _ => rfl) (by simp [Phase.called])
  | @submit _ _ c _ _ tr len running =>
      have entered : Awake φ (σ.mapClient tr.client fun x =>
          { x with requests := x.requests ++ [σ.next + 1] }) :=
        inv.mapClient fun x _ any => ⟨any, id⟩
      refine entered.mono (fun k y live any => ⟨y, live, any, id⟩) ?_ fun _ _ => And.intro
      intro _ _ _ closes
      exact absurd (runs running) closes
  | assignUp | assignWork =>
      refine phase (assign (σ := σ.dismiss _) ?_ _ _ _ _) fun _ _ => And.intro
      exact inv.congr (fun _ => rfl) (fun _ => rfl) fun _ _ => And.intro
  | @block _ _ c x w running live _ _ awaited =>
      refine ⟨?_, fun k _ _ _ closes => by simp [runs running] at closes⟩
      intro k y live' any
      obtain ⟨z, live'', rfl⟩ := change_eq_some_iff.mp live'
      split at any
      · rename_i here
        subst here
        obtain rfl := Option.some.inj (live.symm.trans live'')
        obtain rfl : w = .any := Option.some.inj any
        rw [if_pos rfl]
        rcases awaited with ⟨_, none_⟩ | ⟨_, impossible, _⟩
        · exact none_
        · cases impossible
      · rename_i elsewhere
        rw [if_neg elsewhere]
        exact inv.empty k z live'' any
  | replyQueued => exact inv.reply _ _ _
  | replyWaiting => exact (inv.reply _ _ _).phase (by simp)
  | @requeue _ _ x t tr fin found live _ noAny =>
      have queued : Awake φ (σ.requeue t tr) := by
        refine inv.mapClient fun y live' any => ?_
        obtain rfl := Option.some.inj (live.symm.trans live')
        cases closes : φ.closing with
        | none => exact absurd any (noAny closes)
        | some c => exact absurd any (inv.failed c t tr x closes fin found live)
      exact queued.phase (by simp)
  | setReturn =>
      refine inv.congr (fun _ => rfl) (fun t => ?_) fun _ _ => And.intro
      rw [State.setReturn_tran]
      exact change_map fun _ => rfl
  | finish running =>
      refine (inv.finish _ _ fun _ => rfl).phase fun k _ closes => ?_
      simp [runs running] at closes
  | @fail _ _ c x t tr a v closing _ live serves found executor advert mine _ same =>
      refine ⟨(inv.finish c t fun _ => rfl).empty, ?_⟩
      intro k t' tr' y closes fin found' owner any
      obtain rfl := Option.some.inj fin
      obtain ⟨tr'', found'', rfl⟩ := change_eq_some_iff.mp found'
      obtain rfl := Option.some.inj (found.symm.trans found'')
      rw [if_pos rfl] at owner
      obtain ⟨z, owner', rfl⟩ := change_eq_some_iff.mp owner
      split at any
      · cases any
      · rename_i other
        obtain ⟨x₀, live₀, tables⟩ := exists_of_map_eq (same.client c) live
        obtain ⟨z₀, owner₀, tables'⟩ := exists_of_map_eq (same.client tr.client) owner'
        simp only [Client.tables, Prod.mk.injEq] at tables tables'
        have closes₀ := closes_of_trace trace closing
        refine spares c closes₀.connected closes₀ x₀ live₀ t
          (Client.serves_eq_some_iff.mpr (tables.2.2.2.trans serves)) tr (same.tran ▸ found)
          ⟨?_, other, z₀, owner₀, tables'.2.2.2.trans any⟩
        exact State.worker_eq_some_iff.mpr ⟨a, v, executor, same.advert ▸ advert, mine⟩
  | close _ quiet =>
      refine inv.phase fun _ _ _ fin => ?_
      cases fin
  | sweep | purge => exact inv.delTran _ _
  | dropClient =>
      refine inv.mono (fun k y live any => ⟨y, (put_none_eq_some_iff.mp live).2, any, id⟩)
        (fun t tr found _ _ => ⟨tr, found, rfl⟩) (by simp)
  | done => exact inv.phase (by simp)

end Awake

theorem awake_of_reachable (reach : Reachable SparesWaiters σ) : Awake {} σ := by
  refine Reachable.induction (motive := fun κ => Awake κ.phase κ.state) ?_ ?_ reach
  · constructor <;> simp [State.start]
  · rintro σ₀ e ⟨φ, σ⟩ ⟨φ', τ⟩ _ spares _ trace all awake eff
    exact awake.effect all trace spares eff

/-! ## Waking -/

/-- Client `k` waits for its transaction `t`, or for any reply. -/
structure State.Awaits (σ : State) (k : ClientId) (t : TranId) (tr : Transaction) : Prop where
  found : σ.tran t = some tr
  owner : tr.client = k
  waiting : ∃ y, σ.client k = some y ∧ y.Idle ∧ (y.wait4 = some .any ∨ y.wait4 = some (.tran t))

instance (x : Client) : Decidable x.Idle :=
  inferInstanceAs (Decidable (_ ∧ _))

instance (σ : State) (k : ClientId) (t : TranId) (tr : Transaction) : Decidable (σ.Awaits k t tr) :=
  decidable_of_iff (σ.tran t = some tr ∧ tr.client = k ∧
      ∃ y ∈ σ.client k, y.Idle ∧ (y.wait4 = some .any ∨ y.wait4 = some (.tran t)))
    ⟨fun ⟨found, owner, waiting⟩ => ⟨found, owner, waiting⟩,
      fun ⟨found, owner, waiting⟩ => ⟨found, owner, waiting⟩⟩

/-- Client `k` has been sent `frame`, waits for nothing, and is read from. -/
structure Wakes (σ τ : State) (k : ClientId) (frame : Bytes) : Prop where
  sent : τ.sent k = σ.sent k ++ frame
  released : ∃ z, τ.client k = some z ∧ z.wait4 = none
  reading : τ.Reading k .command 1 []

/-- Client `k` has been sent `bytes` in all, waits for nothing, and is read from into a buffer of
its own. -/
structure Woken (k : ClientId) (bytes : Bytes) (σ : State) : Prop where
  sent : σ.sent k = bytes
  reading : ∃ z b, σ.client k = some z ∧ z.wait4 = none ∧ z.handler = some .command ∧
    z.input = some b ∧ z.used = 0 ∧ σ.buf b = some [0] ∧ ∀ t tr, σ.tran t = some tr → tr.data ≠ b

/-- The data of transactions is in buffers that have been given out. -/
theorem Inv.data_lt (inv : Inv ⟨φ, σ⟩) (t : TranId) (tr : Transaction)
    (found : σ.tran t = some tr) :
    tr.data < σ.next := by
  obtain ⟨data, stored⟩ := inv.buffers.data t tr found
  exact inv.fresh.buf tr.data data stored

theorem woken_reply {x : Client} {t : TranId} {tr : Transaction} (contents : Bytes)
    (old : ∀ t tr, σ.tran t = some tr → tr.data < σ.next) (found : σ.tran t = some tr)
    (live : σ.client tr.client = some x) :
    Woken tr.client (σ.sent tr.client ++ replyFrame tr contents) (σ.reply t tr contents) := by
  have armed :
      ((σ.write tr.client (replyFrame tr contents)).nextCommand tr.client).client tr.client =
        some { x with handler := some .command, input := some σ.next, used := 0 } :=
    change_eq_some_iff.mpr ⟨x, live, (if_pos rfl).symm⟩
  have released :
      (((σ.write tr.client (replyFrame tr contents)).nextCommand tr.client).mapClient tr.client
        fun x => { x with wait4 := none }).client tr.client =
        some { x with handler := some .command, input := some σ.next, used := 0, wait4 := none } :=
    change_eq_some_iff.mpr ⟨_, armed, (if_pos rfl).symm⟩
  refine ⟨if_pos rfl, _, σ.next, Option.map_eq_some_iff.mpr ⟨_, released, rfl⟩, ?_, rfl, rfl, rfl,
    (if_neg (old t tr found).ne').trans (if_pos rfl), ?_⟩
  · simp [State.bereave]
  · intro t' tr' found'
    exact (old t' tr' (put_none_eq_some_iff.mp found').2).ne

theorem Woken.wakes {bytes : Bytes} (woken : Woken k (σ.sent k ++ bytes) τ) :
    Wakes σ τ k bytes := by
  obtain ⟨sent, z, b, live, free, reading, into, used, room, _⟩ := woken
  exact ⟨sent, ⟨z, live, free⟩, z, b, [0], live, reading, into, used, room, rfl, rfl⟩

/-! ## The end of a transaction -/

/-- What `part2` decides by what the client of the transaction waits for. -/
theorem part2_run {x y : Client} {t : TranId} {tr : Transaction} {b : BufId}
    (live : σ.client c = some x) (idle : x.Idle) (serves : x.wait4 = some (.tran t))
    (found : σ.tran t = some tr)
    (owner : ((σ.nextCommand c).finish c t id).client tr.client = some y) :
    part2 c b σ = (if y.wait4 = some .any || y.wait4 = some (.tran t) then sndReply
      t else queueReply t) ((σ.nextCommand c).finish c t id) := by
  have live' : (σ.nextCommand c).client c =
      some { x with handler := some .command, input := some σ.next, used := 0 } :=
    change_eq_some_iff.mpr ⟨x, live, by rw [if_pos rfl]⟩
  have found' : ((σ.nextCommand c).mapClient c fun x => { x with wait4 := none }).tran t =
    some tr := found
  have current : ((σ.nextCommand c).finish c t id).tran t = some { tr with executor := none } :=
    change_eq_some_iff.mpr ⟨tr, found, by rw [if_pos rfl]; rfl⟩
  unfold part2
  rw [seq_of_ok (svrNextCommand_ok_iff.mpr ⟨⟨x, live, idle⟩, rfl⟩),
    bind_of_ok (readClient_ok_iff.mpr ⟨live', rfl⟩)]
  simp only [serves]
  rw [seq_of_ok (modifyClient_ok_iff.mpr ⟨⟨_, live'⟩, rfl⟩),
    seq_of_ok (modifyTran_ok_iff.mpr ⟨⟨tr, found'⟩, rfl⟩)]
  change (readTran t >>= _) ((σ.nextCommand c).finish c t id) = _
  rw [bind_of_ok (readTran_ok_iff.mpr ⟨current, rfl⟩),
    bind_of_ok (readClient_ok_iff.mpr ⟨owner, rfl⟩)]

/-- A waiting client is not the one that is heard from. -/
theorem State.Awaits.other {t : TranId} {tr : Transaction} {handler : Handler} {filled : Bytes}
    (awaits : σ.Awaits k t tr) (received : Received σ e c handler filled) : k ≠ c := by
  rintro rfl
  obtain ⟨_, _, y, live, idle, _⟩ := awaits
  obtain ⟨_, x, _, _, _, _, _, live', reading, _⟩ := received_elim received
  obtain rfl := Option.some.inj (live.symm.trans live')
  cases idle.1.symm.trans reading

/-- Event `e` makes the switchboard call `part2` in `μ`, for worker `c` and its transaction `t`,
whose result is in `tr` and `data`. -/
structure Finishing (σ : State) (e : Event) (c : ClientId) (t : TranId) (tr : Transaction)
    (data : Bytes) (μ : State) : Prop where
  trace : Trace σ e ⟨{}, σ⟩ ⟨{ run := some c }, μ⟩
  worker : ∃ x, μ.client c = some x ∧ x.Idle ∧ x.wait4 = some (.tran t)
  others : ∀ k, k ≠ c → μ.client k = σ.client k
  found : μ.tran t = some tr
  room : μ.buf tr.data = some data
  asked : Returns σ e c
  sent : μ.sent = σ.sent

/-- The last byte of a result. -/
theorem finishing_of_part2 {x : Client} {t : TranId} {tr : Transaction} {filled : Bytes}
    (inv : Inv ⟨{}, σ⟩) (received : Received σ e c .part2 filled) (live : σ.client c = some x)
    (serves : x.wait4 = some (.tran t)) (found : σ.tran t = some tr) :
    ∃ data b μ, Finishing σ e c t tr data μ ∧ step σ e = (part2 c b μ).map Prod.snd ∧
      (x.input = some tr.data → data = filled) := by
  obtain ⟨y, b, contents, live', into, reading, room, length, nonempty, called⟩ :=
    step_of_received received
  obtain rfl := Option.some.inj (live.symm.trans live')
  let μ := σ.begin c .part2 b filled
  have trace : Trace σ e ⟨{}, σ⟩ ⟨{ run := some c }, μ⟩ :=
    .single (.begin received live into reading room length nonempty)
  have begun : μ.client c = some { x with handler := none, input := none, used := 0 } :=
    change_eq_some_iff.mpr ⟨x, live, (if_pos rfl).symm⟩
  obtain ⟨data, stored⟩ := (inv.trace trace).buffers.data t tr found
  refine ⟨data, b, μ, ⟨trace, ⟨_, begun, ⟨rfl, rfl, rfl⟩, serves⟩, fun k other => if_neg other,
    found, stored, ⟨filled, .inr received⟩, rfl⟩, called, fun mine => ?_⟩
  obtain rfl := Option.some.inj (into.symm.trans mine)
  have held : μ.buf tr.data = some filled := if_pos rfl
  exact Option.some.inj (stored.symm.trans held)

/-- The header of a result without data: the result is stored, the header is freed, and `part2` is
called at once. -/
theorem finishing_of_svrreturn {x : Client} {t : TranId} {tr : Transaction} {header : Bytes}
    (inv : Inv ⟨{}, σ⟩) (received : Received σ e c .svrreturn header) (live : σ.client c = some x)
    (serves : x.wait4 = some (.tran t)) (found : σ.tran t = some tr)
    (empty : returnLength header = 0) :
    ∃ b μ, Finishing σ e c t
        { tr with
          rval := (header.getD 0 0).signExtend 32, rcode := tolong (header.drop 1),
          data := σ.next } [] μ ∧
      step σ e = (part2 c b μ).map Prod.snd := by
  obtain ⟨y, b, contents, live', into, reading, room, length, nonempty, _⟩ :=
    step_of_received received
  obtain rfl := Option.some.inj (live.symm.trans live')
  obtain ⟨b', old, into', fresh, apart, stored, called⟩ :=
    step_of_svrreturn inv received live serves found (Int.le_of_eq empty.symm)
  obtain rfl := Option.some.inj (into.symm.trans into')
  let μ := σ.begin c .svrreturn b header
  have held : μ.buf b = some header := if_pos rfl
  have begins : Effect σ e ⟨{}, σ⟩ ⟨{ run := some c, held := some b }, μ⟩ :=
    .begin received live into reading room length nonempty
  have begun : μ.client c = some { x with handler := none, input := none, used := 0 } :=
    change_eq_some_iff.mpr ⟨x, live, (if_pos rfl).symm⟩
  have found' : μ.tran t = some tr := found
  have nothing : resize old (returnLength header).toNat = [] :=
    List.eq_nil_of_length_eq_zero (by rw [length_resize, empty]; rfl)
  let ρ := μ.returned t tr b header old
  have stores : Effect σ e ⟨{ run := some c, held := some b }, μ⟩
      ⟨{ run := some c, held := some b }, μ.setReturn t tr.data ((header.getD 0 0).signExtend 32)
        (tolong (header.drop 1)) (resize old (returnLength header).toNat)⟩ :=
    .setReturn rfl begun serves found' ((if_neg apart).trans stored) (by rw [nothing]; decide)
      ⟨header, received⟩
  have kept : (μ.setReturn t tr.data ((header.getD 0 0).signExtend 32) (tolong (header.drop 1))
      (resize old (returnLength header).toNat)).buf b = some header :=
    (if_neg fresh.ne).trans ((if_neg apart.symm).trans held)
  have trace : Trace σ e ⟨{}, σ⟩ ⟨{ run := some c }, ρ.observe (.handled c .part2 [])⟩ :=
    .head begins (.head stores (.head (.release rfl kept) (.single (.call rfl (.inr (.inr rfl))))))
  have room' : ρ.buf σ.next = some [] := by
    rw [returned_buf (show b < μ.next from fresh)]
    exact (if_pos rfl).trans (congrArg some nothing)
  refine ⟨σ.next, ρ.observe (.handled c .part2 []), ⟨trace, ⟨_, begun, ⟨rfl, rfl, rfl⟩, serves⟩,
    fun k other => if_neg other, returned_tran (b := b) found', room', ⟨header, .inl received⟩,
      rfl⟩, ?_⟩
  rw [called]
  exact congrArg (Except.map Prod.snd) (svriowait_of_empty begun ⟨rfl, rfl, rfl⟩ room')

namespace Finishing

variable {t : TranId} {tr : Transaction} {data : Bytes} {μ : State}

/-- `part2` takes the transaction from its worker, and has then to send the reply or keep it. -/
theorem ends (finishing : Finishing σ e c t tr data μ) :
    Trace σ e ⟨{}, σ⟩ ⟨{ run := some c, fin := some t }, (μ.nextCommand c).finish c t id⟩ := by
  obtain ⟨x, live, idle, serves⟩ := finishing.worker
  have live' : (μ.nextCommand c).client c =
      some { x with handler := some .command, input := some μ.next, used := 0 } :=
    change_eq_some_iff.mpr ⟨x, live, by rw [if_pos rfl]⟩
  have resumes : Effect σ e ⟨{ run := some c }, μ⟩ ⟨{ run := some c }, μ.nextCommand c⟩ :=
    .next rfl live idle
  have finishes : Effect σ e ⟨{ run := some c }, μ.nextCommand c⟩
      ⟨{ run := some c, fin := some t }, (μ.nextCommand c).finish c t id⟩ :=
    .finish rfl rfl live' serves finishing.found finishing.asked
  exact (finishing.trace.tail resumes).tail finishes

theorem current (finishing : Finishing σ e c t tr data μ) :
    ((μ.nextCommand c).finish c t id).tran t = some { tr with executor := none } :=
  change_eq_some_iff.mpr ⟨tr, finishing.found, by rw [if_pos rfl]; rfl⟩

theorem stored (finishing : Finishing σ e c t tr data μ) (start : Inv ⟨{}, σ⟩) :
    ((μ.nextCommand c).finish c t id).buf tr.data = some data := by
  have old : tr.data < μ.next := (start.trace finishing.trace).fresh.buf _ data finishing.room
  exact (if_neg old.ne).trans finishing.room

theorem client (finishing : Finishing σ e c t tr data μ) (other : k ≠ c) :
    ((μ.nextCommand c).finish c t id).client k = σ.client k :=
  (if_neg other).trans ((if_neg other).trans (finishing.others k other))

/-- The client that waits for the transaction is sent the reply. -/
theorem sends {y : Client} (finishing : Finishing σ e c t tr data μ) (start : Inv ⟨{}, σ⟩)
    (owner : ((μ.nextCommand c).finish c t id).client tr.client = some y) (idle : y.Idle) :
    sndReply t ((μ.nextCommand c).finish c t id) =
      .ok (⟨⟩, ((μ.nextCommand c).finish c t id).reply t { tr with executor := none } data) :=
  sndReply_ok_iff.mpr ⟨_, data, y, (start.trace finishing.ends).deletable finishing.current fun _ =>
    nofun, finishing.stored start, owner, idle, rfl⟩

theorem wakes {y : Client} (finishing : Finishing σ e c t tr data μ) (start : Inv ⟨{}, σ⟩)
    (owner : σ.client tr.client = some y) (idle : y.Idle)
    (waiting : y.wait4 = some .any ∨ y.wait4 = some (.tran t)) (other : tr.client ≠ c) (b : BufId) :
    ∃ τ, part2 c b μ = .ok (⟨⟩, τ) ∧ Wakes σ τ tr.client (replyFrame tr data) := by
  obtain ⟨x, live, idle', serves⟩ := finishing.worker
  have owner' : ((μ.nextCommand c).finish c t id).client tr.client = some y :=
    (finishing.client other).trans owner
  have woken : Wakes ((μ.nextCommand c).finish c t id)
      (((μ.nextCommand c).finish c t id).reply t { tr with executor := none } data) tr.client
      (replyFrame tr data) :=
    (woken_reply data (start.trace finishing.ends).data_lt finishing.current owner').wakes
  refine ⟨_, ?_, ?_, woken.released, woken.reading⟩
  · rw [part2_run live idle' serves finishing.found owner', if_pos (by simpa using waiting)]
    exact finishing.sends start owner' idle
  · rw [← finishing.sent]
    exact woken.sent

end Finishing

theorem wakes_of_part2 {x : Client} {t : TranId} {tr : Transaction} {filled : Bytes}
    (inv : Inv ⟨{}, σ⟩) (received : Received σ e c .part2 filled) (live : σ.client c = some x)
    (serves : x.wait4 = some (.tran t)) (awaits : σ.Awaits k t tr) :
    ∃ τ contents, step σ e = .ok τ ∧ Wakes σ τ k (replyFrame tr contents) ∧
      (x.input = some tr.data → contents = filled) := by
  obtain ⟨data, b, μ, finishing, called, filled⟩ :=
    finishing_of_part2 inv received live serves awaits.found
  have other := awaits.other received
  obtain ⟨found, rfl, y, owner, idle, waiting⟩ := awaits
  obtain ⟨τ, done, wakes⟩ := finishing.wakes inv owner idle waiting other b
  refine ⟨τ, data, ?_, wakes, filled⟩
  rw [called, done]
  rfl

theorem wakes_of_svrreturn {x : Client} {t : TranId} {tr : Transaction} {header : Bytes}
    (inv : Inv ⟨{}, σ⟩) (received : Received σ e c .svrreturn header) (live : σ.client c = some x)
    (serves : x.wait4 = some (.tran t)) (awaits : σ.Awaits k t tr)
    (empty : returnLength header = 0) :
    ∃ τ, step σ e = .ok τ ∧ Wakes σ τ k (replyFrame { tr with
      rval := (header.getD 0 0).signExtend 32, rcode := tolong (header.drop 1) } []) := by
  obtain ⟨b, μ, finishing, called⟩ :=
    finishing_of_svrreturn inv received live serves awaits.found empty
  have other := awaits.other received
  obtain ⟨found, rfl, y, owner, idle, waiting⟩ := awaits
  obtain ⟨τ, done, wakes⟩ := finishing.wakes inv owner idle waiting other b
  refine ⟨τ, ?_, wakes⟩
  rw [called, done]
  rfl

/-! ## Deletion of the worker -/

theorem keptByDeletion_woken (k : ClientId) (bytes : Bytes) : KeptByDeletion (Woken k bytes) where
  detach := by
    rintro s a c ⟨sent, z, b, live, free, reading, into, used, room, apart⟩
    refine ⟨sent, _, b, change_eq_some_iff.mpr ⟨z, live, rfl⟩, ?_⟩
    split <;> exact ⟨free, reading, into, used, room, apart⟩
  delTran := by
    rintro s t tr found ⟨sent, z, b, live, free, reading, into, used, room, apart⟩
    refine ⟨sent, _, b, Option.map_eq_some_iff.mpr ⟨z, live, rfl⟩, ?_, reading, into, used,
      (if_neg (apart t tr found).symm).trans room, ?_⟩
    · simp [State.bereave, free]
    · intro t' tr' found'
      exact apart t' tr' (put_none_eq_some_iff.mp found').2
  dropService := fun ⟨sent, z, b, rest⟩ => ⟨sent, z, b, rest⟩
  dropAdvert := fun ⟨sent, z, b, rest⟩ => ⟨sent, z, b, rest⟩

theorem wakes_of_delClient {x : Client} {t : TranId} {tr : Transaction} (inv : Inv ⟨{}, σ⟩)
    (closes : Closes σ e c) (spares : SparesWaiters σ e) (live : σ.client c = some x)
    (serves : x.wait4 = some (.tran t)) (works : σ.worker tr = some c) (awaits : σ.Awaits k t tr)
    (other : k ≠ c) (done : step σ e = .ok τ) :
    ∃ contents, σ.buf tr.data = some contents ∧ Wakes σ τ k (replyFrame { tr with
      rval := TPERRNO, rcode := BitVec.ofNat 64 TPESVCERR } contents) := by
  obtain ⟨u, μ, left, same, deleted⟩ := delClient_of_step closes done
  obtain ⟨found, rfl, y, owner, idle, waiting⟩ := awaits
  obtain ⟨a, v, executor, advert, mine⟩ := State.worker_eq_some_iff.mp works
  simp only [delClient, delClientBy, failWorkWith_plain, delAdvertsWith_plain, delQueueWith_plain,
    id_eq, bind_ok_iff, get_ok_iff, modify_ok_iff, and_assoc] at deleted
  obtain ⟨_, _, failed, _, σ₁, rfl, rfl, _, σ₂, adverts, _, σ₃, requests, _, σ₄, replies, rfl⟩ :=
    deleted
  have owner' : μ.client tr.client = some y := by
    cases left with
    | ended => exact owner
    | unknown b filled => exact change_eq_some_iff.mpr ⟨y, owner, (if_neg other).symm⟩
  have data : ∀ contents, μ.buf tr.data = some contents → σ.buf tr.data = some contents := by
    intro contents room
    cases left with
    | ended => exact room
    | unknown b filled =>
        obtain ⟨apart, room⟩ := put_none_eq_some_iff.mp room
        rcases put_eq_some_iff.mp room with ⟨here, _⟩ | ⟨_, room⟩
        · exact absurd here apart
        · exact room
  have next : μ.next = σ.next := by
    cases left <;> rfl
  have awaited : y.wait4 = some (.tran t) := by
    refine waiting.resolve_left fun any => ?_
    exact spares c closes.connected closes x live t (Client.serves_eq_some_iff.mpr serves) tr found
      ⟨works, other, y, owner, any⟩
  obtain ⟨x', live', outcome⟩ := failWork_ok_iff.mp failed
  obtain ⟨x₀, live₀, tables⟩ := exists_of_map_eq (same.client c) live'
  obtain rfl := Option.some.inj (live.symm.trans live₀)
  simp only [Client.tables, Prod.mk.injEq] at tables
  rcases outcome with ⟨t', tr', _, _, serves', found', _, _, _, answers⟩ | ⟨nothing, _⟩
  · obtain rfl : t = t' :=
      Wait.tran.inj (Option.some.inj ((serves.symm.trans tables.2.2.2).trans serves'))
    obtain rfl := Option.some.inj ((same.tran ▸ found : μ.tran t = some tr).symm.trans found')
    let result : Transaction → Transaction := fun tr =>
      { tr with executor := none, rval := TPERRNO, rcode := BitVec.ofNat 64 TPESVCERR }
    let ρ := (μ.mapClient c fun x => { x with wait4 := none }).mapTran t result
    have found'' : ρ.tran t = some (result tr) :=
      change_eq_some_iff.mpr ⟨tr, found', (if_pos rfl).symm⟩
    have owner'' : ρ.client tr.client = some y :=
      change_eq_some_iff.mpr ⟨y, owner', (if_neg other).symm⟩
    simp only [failTransaction, failTransactionWith, sndReplyWith_plain,
    bind_ok_iff, modifyClient_ok_iff, modifyTran_ok_iff, readTran_ok_iff,
      readClient_ok_iff, and_assoc, exists_and_left, exists_eq_left, exists_const] at answers
    obtain ⟨_, _, tr', current, z, owns, rest⟩ := answers
    obtain rfl := Option.some.inj (found''.symm.trans current)
    obtain rfl := Option.some.inj (owner''.symm.trans owns)
    rw [if_pos awaited] at rest
    obtain ⟨tr', contents, z, deletable, room, _, _, rfl⟩ := sndReply_ok_iff.mp rest
    obtain rfl := Option.some.inj (found''.symm.trans deletable.live)
    refine ⟨contents, data contents room, ?_⟩
    have old : ∀ t tr, ρ.tran t = some tr → tr.data < ρ.next := by
      intro t' tr' here
      obtain ⟨tr₀, there, rfl⟩ := change_eq_some_iff.mp here
      have before := inv.data_lt t' tr₀ (same.tran ▸ there)
      have kept : ρ.next = σ.next := next
      rw [kept]
      split <;> exact before
    have woken := woken_reply contents old found'' owner''
    have kept := keptByDeletion_woken tr.client (ρ.sent tr.client ++ replyFrame
      (result tr) contents)
    have last := kept.delQueue replies (kept.delQueue requests (kept.delAdverts adverts woken))
    have sent : ρ.sent = σ.sent := same.sent
    rw [sent] at last
    obtain ⟨said, z, b, alive, rest⟩ := last
    have dropped : Woken tr.client (σ.sent tr.client ++ replyFrame (result tr) contents)
        (σ₄.dropClient c) :=
      ⟨said, z, b, put_none_eq_some_iff.mpr ⟨other, alive⟩, rest⟩
    exact dropped.wakes
  · obtain ⟨tr', found', elsewhere⟩ := nothing t (tables.2.2.2.symm.trans serves)
    obtain rfl := Option.some.inj ((same.tran ▸ found : μ.tran t = some tr).symm.trans found')
    obtain ⟨w, advert', different⟩ := elsewhere a executor
    obtain rfl := Option.some.inj ((same.advert ▸ advert : μ.advert a = some v).symm.trans advert')
    exact absurd mine different

/-- In an orderly run a client whose buffer is allocated can be deleted. -/
theorem step_of_closes {x : Client} (inOrder : InOrder ⟨{}, σ⟩) (orderly : Orderly σ e)
    (closes : Closes σ e c) (live : σ.client c = some x)
    (room : ∀ b, x.input = some b → ∃ contents, σ.buf b = some contents) :
    ∃ τ, step σ e = .ok τ := by
  obtain ⟨φ, μ, _, quiet, trace, same, called⟩ := step_closes closes fun y b live' into => by
    obtain rfl := Option.some.inj (live.symm.trans live')
    exact room b into
  obtain ⟨y, live', _⟩ := exists_of_map_eq (same.client c).symm live
  obtain ⟨τ, _, deleted, _⟩ := delClient_total
    (fun trace => (inOrder.trace orderly trace).removable) e.env closes quiet trace same live'
  refine ⟨τ, ?_⟩
  rw [called, deleted]
  rfl

end Switchboard
end Xatmi
