import Xatmi.Switchboard.Ownership

/-!
# Dispatched transactions

What the record of dispatches says about the memory: a client that is reading or running serves only
what was dispatched to it, only dispatched transactions are answered, and a transaction whose data
is still on its way has not been dispatched.
-/

namespace Xatmi
namespace Switchboard

open Intrusive

/-! ## Identifiers -/

/-- Identifiers in use have been given out. -/
structure Fresh (σ : State) : Prop where
  clients : ∀ c ∈ σ.clients, c < σ.next
  buf : ∀ b contents, σ.buf b = some contents → b < σ.next
  log : ∀ a c t, .dispatched a c t ∈ σ.log → a < σ.next ∧ c < σ.next ∧ t < σ.next

namespace Fresh

variable {φ φ' : Phase} {σ τ : State}

theorem start : Fresh .start := by
  constructor <;> simp [State.start]

theorem client_next (inv : Fresh σ) (registry : Registry φ σ) : σ.client σ.next = none := by
  by_contra live
  obtain ⟨x, live⟩ := Option.ne_none_iff_exists'.mp live
  exact Nat.lt_irrefl _ (inv.clients σ.next ((registry.mem_clients _).mpr ⟨x, live⟩))

theorem mono (inv : Fresh σ) (next : σ.next ≤ τ.next) (clients : ∀ c ∈ τ.clients, c ∈ σ.clients)
    (buf : ∀ b contents, τ.buf b = some contents → (∃ old, σ.buf b = some old) ∨ b < τ.next)
    (log : ∀ a c t, .dispatched a c t ∈ τ.log → .dispatched a c t ∈ σ.log) : Fresh τ where
  clients c connected := (inv.clients c (clients c connected)).trans_le next
  buf b contents room := by
    rcases buf b contents room with ⟨old, room'⟩ | given
    · exact (inv.buf b old room').trans_le next
    · exact given
  log a c t seen := by
    have := inv.log a c t (log a c t seen)
    omega

theorem alloc (inv : Fresh σ) (data : Bytes) : Fresh (σ.allocBuf data) := by
  refine inv.mono (Nat.le_succ _) (fun _ => id) ?_ (fun _ _ _ => id)
  intro b contents room
  rcases put_eq_some_iff.mp room with ⟨rfl, _⟩ | ⟨_, room⟩
  · exact .inr (Nat.lt_succ_self _)
  · exact .inl ⟨contents, room⟩

theorem free (inv : Fresh σ) (b : BufId) : Fresh (σ.freeBuf b) := by
  refine inv.mono (Nat.le_refl _) (fun _ => id) ?_ (fun _ _ _ => id)
  intro b' contents room
  rcases put_eq_some_iff.mp room with ⟨_, impossible⟩ | ⟨_, room⟩
  · cases impossible
  · exact .inl ⟨contents, room⟩

/-- What does not touch the lists, the buffers or the dispatches. -/
theorem congr (inv : Fresh σ) (next : σ.next ≤ τ.next) (clients : τ.clients = σ.clients)
    (buf : τ.buf = σ.buf) (log : τ.log = σ.log) : Fresh τ :=
  inv.mono next (clients ▸ fun _ => id) (fun _ contents room => .inl ⟨contents, buf ▸ room⟩)
    (log ▸ fun _ _ _ => id)

theorem nextCommand (inv : Fresh σ) (c : ClientId) : Fresh (σ.nextCommand c) :=
  (inv.alloc [0]).congr (Nat.le_refl _) rfl rfl rfl

theorem delTran (inv : Fresh σ) (t : TranId) (tr : Transaction) : Fresh (σ.delTran t tr) :=
  (inv.free tr.data).congr (Nat.le_refl _) rfl rfl rfl

theorem reply (inv : Fresh σ) (t : TranId) (tr : Transaction) (contents : Bytes) :
    Fresh (σ.reply t tr contents) := by
  have written : Fresh (σ.write tr.client (replyFrame tr contents)) :=
    inv.congr (Nat.le_refl _) rfl rfl rfl
  refine delTran ?_ t tr
  exact (written.nextCommand tr.client).congr (Nat.le_refl _) rfl rfl rfl

theorem handled (inv : Fresh σ) (c : ClientId) (handler : Handler) (buf : Bytes) :
    Fresh (σ.observe (.handled c handler buf)) := by
  refine inv.mono (Nat.le_refl _) (fun _ => id) (fun b contents room => .inl ⟨contents, room⟩) ?_
  simp [State.observe]

theorem store (inv : Fresh σ) {b : BufId} {old : Bytes} (room : σ.buf b = some old)
    (contents : Bytes) : Fresh { σ with buf := put σ.buf b (some contents) } := by
  refine inv.mono (Nat.le_refl _) (fun _ => id) ?_ (fun _ _ _ => id)
  intro b' contents' room'
  rcases put_eq_some_iff.mp room' with ⟨rfl, _⟩ | ⟨_, room'⟩
  · exact .inl ⟨old, room⟩
  · exact .inl ⟨contents', room'⟩

theorem assign (inv : Fresh σ) {a : AdvertId} {v : Advert} {t : TranId} (frame : Bytes)
    (advert : a < σ.next) (worker : v.client < σ.next) (tran : t < σ.next) :
    Fresh (σ.assign a v t frame) := by
  have seen : Fresh (σ.observe (.dispatched a v.client t)) := by
    refine ⟨inv.clients, inv.buf, ?_⟩
    intro a' c t' member
    simp only [State.observe, List.mem_cons, Obs.dispatched.injEq] at member
    rcases member with ⟨rfl, rfl, rfl⟩ | member
    · exact ⟨advert, worker, tran⟩
    · exact inv.log a' c t' member
  exact (seen.alloc [0]).congr (Nat.le_refl _) rfl rfl rfl

theorem effect {σ₀ : State} {e : Event} (inv : Fresh σ) (waits : WaitQueues σ)
    (registry : Registry φ σ) (eff : Effect σ₀ e ⟨φ, σ⟩ ⟨φ', τ⟩) : Fresh τ := by
  have advertOld : ∀ {a v}, σ.advert a = some v → a < σ.next := fun {a v} found =>
    (waits.old (.adv a) (Option.isSome_of_eq_some found)).1
  have tranOld : ∀ {t tr}, σ.tran t = some tr → t < σ.next := fun {t tr} found =>
    (waits.old (.tran t) (Option.isSome_of_eq_some found)).1
  have clientOld : ∀ {c x}, σ.client c = some x → c < σ.next := fun {c x} live =>
    inv.clients c ((registry.mem_clients c).mpr ⟨x, live⟩)
  cases eff with
  | connect =>
      refine nextCommand ?_ _
      refine ⟨?_, fun b contents room => (inv.buf b contents room).trans (Nat.lt_succ_self _),
        fun a c t seen => ?_⟩
      · intro c connected
        simp only [State.addClient, List.mem_append, List.mem_singleton] at connected
        rcases connected with connected | rfl
        · exact (inv.clients c connected).trans (Nat.lt_succ_self _)
        · exact Nat.lt_succ_self _
      · have := inv.log a c t seen
        simp only [State.addClient]
        omega
  | fill _ _ _ room => exact (inv.store room _).congr (Nat.le_refl _) rfl rfl rfl
  | begin _ _ _ _ room =>
      refine handled ?_ _ _ _
      exact (inv.store room _).congr (Nat.le_refl _) rfl rfl rfl
  | call => exact inv.handled _ _ _
  | write | armHeader | armUpload | enqueue | park | block | requeue | armReturn | finish | fail
  | detach | dropService | dropAdvert => exact inv.congr (Nat.le_refl _) rfl rfl rfl
  | found | offer => exact inv.congr (Nat.le_succ _) rfl rfl rfl
  | rest | spare | close | orphan | done => exact inv
  | release => exact inv.free _
  | resize => exact (inv.free _).alloc _
  | next => exact inv.nextCommand _
  | submit => exact (inv.alloc _).congr (Nat.le_succ _) rfl rfl rfl
  | assignUp _ found _ _ _ _ advert worker =>
      refine assign ?_ _ (advertOld advert) (clientOld worker) (tranOld found)
      exact inv.congr (Nat.le_refl _) rfl rfl rfl
  | assignWork _ _ _ _ _ advert _ _ _ worker _ _ found =>
      refine assign ?_ _ (advertOld advert) (clientOld worker) (tranOld found)
      exact inv.congr (Nat.le_refl _) rfl rfl rfl
  | replyQueued | replyWaiting => exact inv.reply _ _ _
  | setReturn => exact ((inv.free _).alloc _).congr (Nat.le_refl _) rfl rfl rfl
  | sweep | purge => exact inv.delTran _ _
  | dropClient =>
      exact inv.mono (Nat.le_refl _) (fun _ => List.mem_of_mem_erase)
        (fun b contents room => .inl ⟨contents, room⟩) (fun _ _ _ => id)

end Fresh

/-! ## Dispatches -/

/-- Transaction `t` has been handed to a worker. -/
def State.Dispatched (σ : State) (t : TranId) : Prop :=
  ∃ a c, .dispatched a c t ∈ σ.log

/-- The transaction of a dispatch. -/
def Obs.tran? : Obs → Option TranId
  | .dispatched _ _ t => some t
  | .handled .. => none

/-- The transactions passed to `send_to_server`, once for every time. -/
def State.handedOut (σ : State) : List TranId :=
  σ.log.filterMap Obs.tran?

theorem State.mem_handedOut_iff {σ : State} {t : TranId} : t ∈ σ.handedOut ↔ σ.Dispatched t := by
  simp only [State.handedOut, List.mem_filterMap, State.Dispatched]
  constructor
  · rintro ⟨o, member, same⟩
    cases o with
    | handled c handler buf => simp [Obs.tran?] at same
    | dispatched a c t' =>
        obtain rfl := Option.some.inj same
        exact ⟨a, c, member⟩
  · rintro ⟨a, c, member⟩
    exact ⟨_, member, rfl⟩

/-- Transaction `t` is the last request of client `x`, and nobody else knows of it. -/
structure State.Uploading (σ : State) (t : TranId) (tr : Transaction) (x : Client) : Prop where
  found : σ.tran t = some tr
  owner : σ.client tr.client = some x
  last : x.requests.getLast? = some t
  alone : σ.links.Alone (.tran t)
  new : ¬σ.Dispatched t

/-- What the dispatches say about the memory, in every reachable memory. -/
structure Dispatches (φ : Phase) (σ : State) : Prop where
  /-- A client that is reading or running waits for no reply. -/
  active : ∀ c x, σ.client c = some x → x.handler ≠ none ∨ φ.run = some c →
    x.wait4 ≠ some .any ∧ ∀ t, x.wait4 = some (.tran t) → ∃ a, .dispatched a c t ∈ σ.log
  executor : ∀ t tr a, σ.tran t = some tr → tr.executor = some a →
    ∃ c, .dispatched a c t ∈ σ.log ∧ ∀ v, σ.advert a = some v → v.client = c
  finished : ∀ t, φ.fin = some t → σ.Dispatched t
  replied : ∀ c x t, σ.client c = some x → t ∈ x.replies → σ.Dispatched t
  /-- A client that is sending data has its transaction last among its requests. -/
  upload : ∀ c x, σ.client c = some x → x.handler = some .sendToWorker → φ.closing ≠ some c →
    ∃ t tr, σ.Uploading t tr x ∧ tr.client = c ∧ x.input = some tr.data
  uploaded : ∀ t, φ.up = some t →
    ∃ tr x, σ.Uploading t tr x ∧ x.handler ≠ some .sendToWorker

/-- What the dispatches say about a client depends on these fields. -/
def Client.serving (x : Client) :
    Option Handler × Option BufId × List TranId × List TranId × Option Wait :=
  (x.handler, x.input, x.requests, x.replies, x.wait4)

/-- What the dispatches say about a transaction depends on these fields. -/
def Transaction.served (tr : Transaction) : ClientId × BufId × Option AdvertId :=
  (tr.client, tr.data, tr.executor)

theorem getLast?_erase_of_ne {α : Type} [DecidableEq α] {xs : List α} {x y : α}
    (last : xs.getLast? = some x) (different : y ≠ x) : (xs.erase y).getLast? = some x := by
  obtain ⟨start, rfl⟩ := List.getLast?_eq_some_iff.mp last
  by_cases member : y ∈ start
  · simp [List.erase_append_left _ member]
  · simp [List.erase_append_right _ member, different.symm]

namespace Dispatches

variable {φ φ' : Phase} {σ τ : State}

theorem start : Dispatches {} .start := by
  constructor <;> simp [State.start]

/-- A transaction that is being uploaded has no executor and awaits no answer. -/
theorem executor_eq_none_of_uploading (inv : Dispatches φ σ) {t : TranId} {tr : Transaction}
    {x : Client} (uploading : σ.Uploading t tr x) : tr.executor = none := by
  by_contra executor
  obtain ⟨a, executor⟩ := Option.ne_none_iff_exists'.mp executor
  obtain ⟨c, seen, _⟩ := inv.executor t tr a uploading.found executor
  exact uploading.new ⟨a, c, seen⟩

/-- Effects on what the dispatches say nothing about. -/
theorem mono (inv : Dispatches φ σ)
    (client : ∀ c, (τ.client c).map Client.serving = (σ.client c).map Client.serving)
    (tran : ∀ t, (τ.tran t).map Transaction.served = (σ.tran t).map Transaction.served)
    (advert : ∀ a c t v, .dispatched a c t ∈ σ.log → τ.advert a = some v → σ.advert a = some v)
    (links : ∀ t tr x, σ.Uploading t tr x → x.handler = some .sendToWorker ∨ φ'.up = some t →
      τ.links.Alone (.tran t))
    (log : ∀ a c t, .dispatched a c t ∈ τ.log ↔ .dispatched a c t ∈ σ.log)
    (run : ∀ c, φ'.run = some c → φ.run = some c) (fin : ∀ t, φ'.fin = some t → φ.fin = some t)
    (closing : ∀ c, φ.closing = some c → φ'.closing = some c)
    (up : ∀ t, φ'.up = some t → φ.up = some t) : Dispatches φ' τ := by
  have clientIff : ∀ {c y}, τ.client c = some y → ∃ x, σ.client c = some x ∧
      x.handler = y.handler ∧ x.input = y.input ∧ x.requests = y.requests ∧
        x.replies = y.replies ∧ x.wait4 = y.wait4 := by
    intro c y live
    obtain ⟨x, live', same⟩ := exists_of_map_eq (client c) live
    simp only [Client.serving, Prod.mk.injEq] at same
    exact ⟨x, live', same⟩
  have dispatched : ∀ t, τ.Dispatched t ↔ σ.Dispatched t := by
    intro t
    simp only [State.Dispatched, log]
  have carry : ∀ {t tr x}, σ.Uploading t tr x → x.handler = some .sendToWorker ∨ φ'.up = some t →
      ∃ tr' y, τ.Uploading t tr' y ∧ tr'.client = tr.client ∧ tr'.data = tr.data ∧
        y.handler = x.handler := by
    intro t tr x uploading reason
    obtain ⟨tr', found', same⟩ := exists_of_map_eq (tran t).symm uploading.found
    simp only [Transaction.served, Prod.mk.injEq] at same
    obtain ⟨y, live', same'⟩ := exists_of_map_eq (client tr.client).symm uploading.owner
    simp only [Client.serving, Prod.mk.injEq] at same'
    refine ⟨tr', y, ⟨found', same.1 ▸ live', ?_, links t tr x uploading reason, ?_⟩, same.1,
      same.2.1, same'.1⟩
    · rw [same'.2.2.1]
      exact uploading.last
    · rw [dispatched]
      exact uploading.new
  constructor
  · intro c y live act
    obtain ⟨x, live', handler, _, _, _, wait4⟩ := clientIff live
    simp only [log, ← wait4]
    exact inv.active c x live' (act.imp (handler ▸ id) (run c))
  · intro t tr a found executor
    obtain ⟨tr', found', same⟩ := exists_of_map_eq (tran t) found
    simp only [Transaction.served, Prod.mk.injEq] at same
    obtain ⟨c, seen, client⟩ := inv.executor t tr' a found' (same.2.2.trans executor)
    exact ⟨c, (log a c t).mpr seen, fun v current => client v (advert a c t v seen current)⟩
  · intro t finished
    exact (dispatched t).mpr (inv.finished t (fin t finished))
  · intro c y t live member
    obtain ⟨x, live', _, _, _, replies, _⟩ := clientIff live
    exact (dispatched t).mpr (inv.replied c x t live' (replies ▸ member))
  · intro c y live handler notClosing
    obtain ⟨x, live', handler', input, _, _, _⟩ := clientIff live
    obtain ⟨t, tr, uploading, owner, data⟩ := inv.upload c x live' (handler'.trans handler)
      fun closed => notClosing (closing c closed)
    obtain ⟨tr', z, uploading', owner', data', _⟩ :=
      carry uploading (.inl (handler'.trans handler))
    have same : z = y := by
      have := uploading'.owner
      rw [owner', owner, live] at this
      exact (Option.some.inj this).symm
    exact ⟨t, tr', same ▸ uploading', owner'.trans owner, by rw [← input, data, data']⟩
  · intro t uploaded
    obtain ⟨tr, x, uploading, handler⟩ := inv.uploaded t (up t uploaded)
    obtain ⟨tr', y, uploading', _, _, handler'⟩ := carry uploading (.inr uploaded)
    exact ⟨tr', y, uploading', handler' ▸ handler⟩

theorem uploading_mapClient {c : ClientId} {update : Client → Client} {t : TranId}
    {tr : Transaction} {x : Client} (uploading : σ.Uploading t tr x)
    (last : tr.client = c → (update x).requests.getLast? = some t) :
    (σ.mapClient c update).Uploading t tr (if tr.client = c then update x else x) := by
  refine ⟨uploading.found, change_eq_some_iff.mpr ⟨x, uploading.owner, rfl⟩, ?_, uploading.alone,
    uploading.new⟩
  split
  · exact last ‹_›
  · exact uploading.last

/-- Effects on one client. -/
theorem mapClient (inv : Dispatches φ σ) {c : ClientId} {update : Client → Client}
    (active : ∀ x, σ.client c = some x → (update x).handler ≠ none ∨ φ.run = some c →
      (update x).wait4 ≠ some .any ∧
        ∀ t, (update x).wait4 = some (.tran t) → ∃ a, .dispatched a c t ∈ σ.log)
    (replied : ∀ x t, σ.client c = some x → t ∈ (update x).replies → σ.Dispatched t)
    (upload : ∀ x, σ.client c = some x → (update x).handler = some .sendToWorker →
      φ.closing ≠ some c →
        ∃ t tr, σ.Uploading t tr x ∧ tr.client = c ∧ (update x).input = some tr.data)
    (last : ∀ x t, σ.client c = some x → ¬σ.Dispatched t → x.requests.getLast? = some t →
      (update x).requests.getLast? = some t)
    (noUpload : ∀ x, σ.client c = some x → (update x).handler = some .sendToWorker →
      x.handler = some .sendToWorker ∨ φ.up = none) : Dispatches φ (σ.mapClient c update) := by
  have client : ∀ {k y}, (σ.mapClient c update).client k = some y ↔
      ∃ x, σ.client k = some x ∧ y = if k = c then update x else x :=
    change_eq_some_iff
  have carry : ∀ {t tr x}, σ.Uploading t tr x →
      (σ.mapClient c update).Uploading t tr (if tr.client = c then update x else x) :=
    fun uploading => uploading_mapClient uploading fun same =>
      last _ _ (same ▸ uploading.owner) uploading.new uploading.last
  constructor
  · intro k y live act
    obtain ⟨x, live', rfl⟩ := client.mp live
    by_cases same : k = c
    · subst same
      simp only [↓reduceIte] at act ⊢
      exact active x live' act
    · simp only [same, ↓reduceIte] at act ⊢
      exact inv.active k x live' act
  · exact inv.executor
  · exact inv.finished
  · intro k y t live member
    obtain ⟨x, live', rfl⟩ := client.mp live
    split at member
    · rename_i same
      exact replied x t (same ▸ live') member
    · exact inv.replied k x t live' member
  · intro k y live handler notClosing
    obtain ⟨x, live', rfl⟩ := client.mp live
    by_cases same : k = c
    · subst same
      simp only [↓reduceIte] at handler ⊢
      obtain ⟨t, tr, uploading, owner, data⟩ := upload x live' handler notClosing
      have carried := carry uploading
      rw [if_pos owner] at carried
      exact ⟨t, tr, carried, owner, data⟩
    · simp only [same, ↓reduceIte] at handler ⊢
      obtain ⟨t, tr, uploading, owner, data⟩ := inv.upload k x live' handler notClosing
      have carried := carry uploading
      rw [if_neg (owner ▸ same)] at carried
      exact ⟨t, tr, carried, owner, data⟩
  · intro t uploaded
    obtain ⟨tr, x, uploading, handler⟩ := inv.uploaded t uploaded
    refine ⟨tr, _, carry uploading, ?_⟩
    split
    · rename_i same
      intro sending
      rcases noUpload x (same ▸ uploading.owner) sending with before | noUp
      · exact handler before
      · simp [noUp] at uploaded
    · exact handler

/-- Effects on one transaction. -/
theorem mapTran (inv : Dispatches φ σ) {t : TranId} {update : Transaction → Transaction}
    (client : ∀ tr, (update tr).client = tr.client)
    (data : ∀ tr, σ.tran t = some tr → (update tr).data = tr.data ∨ σ.Dispatched t)
    (executor : ∀ tr a, σ.tran t = some tr → (update tr).executor = some a →
      ∃ c, .dispatched a c t ∈ σ.log ∧ ∀ v, σ.advert a = some v → v.client = c) :
    Dispatches φ (σ.mapTran t update) := by
  have tran : ∀ {t' tr'}, (σ.mapTran t update).tran t' = some tr' ↔
      ∃ tr, σ.tran t' = some tr ∧ tr' = if t' = t then update tr else tr :=
    change_eq_some_iff
  have carry : ∀ {t' tr x}, σ.Uploading t' tr x →
      ∃ tr', (σ.mapTran t update).Uploading t' tr' x ∧ tr'.client = tr.client ∧
        tr'.data = tr.data := by
    intro t' tr x uploading
    refine ⟨_, ⟨tran.mpr ⟨tr, uploading.found, rfl⟩, ?_, uploading.last, uploading.alone,
      uploading.new⟩, ?_, ?_⟩
    · split
      · rw [client]
        exact uploading.owner
      · exact uploading.owner
    · split
      · exact client tr
      · rfl
    · split
      · rename_i same
        subst same
        exact (data tr uploading.found).resolve_right uploading.new
      · rfl
  constructor
  · exact inv.active
  · intro t' tr' a found exec
    obtain ⟨tr, found', rfl⟩ := tran.mp found
    split at exec
    · rename_i same
      subst same
      exact executor tr a found' exec
    · exact inv.executor t' tr a found' exec
  · exact inv.finished
  · exact inv.replied
  · intro c x live handler notClosing
    obtain ⟨t', tr, uploading, owner, input⟩ := inv.upload c x live handler notClosing
    obtain ⟨tr', uploading', owner', data'⟩ := carry uploading
    exact ⟨t', tr', uploading', owner'.trans owner, data' ▸ input⟩
  · intro t' uploaded
    obtain ⟨tr, x, uploading, handler⟩ := inv.uploaded t' uploaded
    obtain ⟨tr', uploading', _⟩ := carry uploading
    exact ⟨tr', x, uploading', handler⟩

/-- A dispatch is recorded. -/
theorem dispatched (inv : Dispatches φ σ) {a : AdvertId} {c : ClientId} {t : TranId}
    (noUpload : ∀ tr x, σ.Uploading t tr x → x.handler ≠ some .sendToWorker)
    (noUp : φ.up ≠ some t) : Dispatches φ (σ.observe (.dispatched a c t)) := by
  have keep : ∀ {o}, o ∈ σ.log → o ∈ (σ.observe (.dispatched a c t)).log := by
    intro o member
    exact List.mem_cons_of_mem _ member
  have keeps : ∀ {t'}, σ.Dispatched t' → (σ.observe (.dispatched a c t)).Dispatched t' :=
    fun ⟨a', c', seen⟩ => ⟨a', c', keep seen⟩
  have carry : ∀ {t' tr x}, t' ≠ t → σ.Uploading t' tr x →
      (σ.observe (.dispatched a c t)).Uploading t' tr x := by
    rintro t' tr x different ⟨found, owner, last, alone, new⟩
    refine ⟨found, owner, last, alone, ?_⟩
    rintro ⟨a', c', seen⟩
    simp only [State.observe, List.mem_cons, Obs.dispatched.injEq] at seen
    rcases seen with ⟨_, _, same⟩ | seen
    · exact different same
    · exact new ⟨a', c', seen⟩
  constructor
  · intro k x live act
    refine (inv.active k x live act).imp id fun serves t' wait => ?_
    obtain ⟨a', seen⟩ := serves t' wait
    exact ⟨a', keep seen⟩
  · intro t' tr a' found exec
    obtain ⟨c', seen, client⟩ := inv.executor t' tr a' found exec
    exact ⟨c', keep seen, client⟩
  · exact fun t' fin => keeps (inv.finished t' fin)
  · exact fun k x t' live member => keeps (inv.replied k x t' live member)
  · intro k x live handler notClosing
    obtain ⟨t', tr, uploading, rest⟩ := inv.upload k x live handler notClosing
    have different : t' ≠ t := by
      rintro rfl
      exact noUpload tr x uploading handler
    exact ⟨t', tr, carry different uploading, rest⟩
  · intro t' uploaded
    obtain ⟨tr, x, uploading, handler⟩ := inv.uploaded t' uploaded
    have different : t' ≠ t := by
      rintro rfl
      exact noUp uploaded
    exact ⟨tr, x, carry different uploading, handler⟩

theorem submit (inv : Dispatches φ σ) (fresh : Fresh σ) (freshTran : σ.tran (σ.next + 1) = none)
    {tr : Transaction} {x : Client} {len : Nat} (live : σ.client tr.client = some x)
    (idle : x.Idle) (new : tr.executor = none) :
    Dispatches { φ with up := some (σ.next + 1) } (σ.submit tr len) := by
  have client : ∀ {k y}, (σ.submit tr len).client k = some y ↔ ∃ z, σ.client k = some z ∧
      y = if k = tr.client then { z with requests := z.requests ++ [σ.next + 1] } else z :=
    change_eq_some_iff
  have tran : ∀ {t tr'}, (σ.submit tr len).tran t = some tr' ↔
      t = σ.next + 1 ∧ some tr = some tr' ∨ t ≠ σ.next + 1 ∧ σ.tran t = some tr' :=
    put_eq_some_iff
  have log : (σ.submit tr len).log = σ.log := rfl
  have links : (σ.submit tr len).links = σ.links.init (.tran (σ.next + 1)) := rfl
  constructor
  · intro k y seen act
    obtain ⟨z, seen', rfl⟩ := client.mp seen
    have old := inv.active k z seen'
    split at act <;> rename_i same
    · simpa [same, log] using old act
    · simpa [same, log] using old act
  · intro t tr' a found exec
    rcases tran.mp found with ⟨_, made⟩ | ⟨_, found⟩
    · obtain rfl := Option.some.inj made
      simp [new] at exec
    · exact inv.executor t tr' a found exec
  · exact inv.finished
  · intro k y t seen member
    obtain ⟨z, seen', rfl⟩ := client.mp seen
    split at member
    · exact inv.replied k z t seen' member
    · exact inv.replied k z t seen' member
  · intro k y seen handler notClosing
    obtain ⟨z, seen', rfl⟩ := client.mp seen
    have other : k ≠ tr.client := by
      rintro rfl
      obtain rfl := Option.some.inj (live.symm.trans seen')
      simp [idle.1] at handler
    rw [if_neg other] at handler ⊢
    obtain ⟨t, tr', ⟨found, owner, last, alone, undispatched⟩, same, data⟩ :=
      inv.upload k z seen' handler notClosing
    have different : t ≠ σ.next + 1 := by
      rintro rfl
      simp [freshTran] at found
    refine ⟨t, tr', ⟨tran.mpr (.inr ⟨different, found⟩), ?_, last, ?_, undispatched⟩, same, data⟩
    · exact client.mpr ⟨z, owner, by rw [if_neg (same ▸ other)]⟩
    · rw [links]
      exact ⟨by simpa [Links.init_p1, different] using alone.1,
        by simpa [Links.init_p2, different] using alone.2⟩
  · intro t same
    obtain rfl := Option.some.inj same
    refine ⟨tr, _, ⟨tran.mpr (.inl ⟨rfl, rfl⟩), client.mpr ⟨x, live, rfl⟩, ?_, ?_, ?_⟩, ?_⟩
    · simp
    · exact WaitQueues.init_alone _ _
    · rintro ⟨a, c, seen⟩
      have := fresh.log a c _ seen
      omega
    · simp [idle.1]

theorem delTran (inv : Dispatches φ σ) (waits : WaitQueues σ) {t : TranId} {tr : Transaction}
    (found : σ.tran t = some tr)
    (notNew : ∀ tr' x, σ.Uploading t tr' x → φ.closing = some tr'.client ∧ φ.up = none) :
    Dispatches φ (σ.delTran t tr) := by
  have client : ∀ {k y}, (σ.delTran t tr).client k = some y ↔
      ∃ z, σ.client k = some z ∧ σ.bereave t tr k z = y :=
    Option.map_eq_some_iff
  have tran : ∀ {t' tr'}, (σ.delTran t tr).tran t' = some tr' ↔ t' ≠ t ∧ σ.tran t' = some tr' := by
    intro t' tr'
    exact put_eq_some_iff.trans (by simp)
  have carry : ∀ {t' tr' x}, t' ≠ t → σ.Uploading t' tr' x →
      (σ.delTran t tr).Uploading t' tr' (σ.bereave t tr tr'.client x) := by
    intro t' tr' x different uploading
    refine ⟨tran.mpr ⟨different, uploading.found⟩, client.mpr ⟨x, uploading.owner, rfl⟩, ?_,
      waits.alone_unlink_tran found uploading.alone, uploading.new⟩
    simp only [State.bereave]
    split
    · exact getLast?_erase_of_ne uploading.last different.symm
    · exact uploading.last
  constructor
  · intro k y live act
    obtain ⟨z, live', rfl⟩ := client.mp live
    obtain ⟨notAny, serves⟩ := inv.active k z live' act
    simp only [State.bereave]
    split
    · simp
    · exact ⟨notAny, serves⟩
  · intro t' tr' a found' exec
    exact inv.executor t' tr' a (tran.mp found').2 exec
  · exact inv.finished
  · intro k y t' live member
    obtain ⟨z, live', rfl⟩ := client.mp live
    refine inv.replied k z t' live' ?_
    simp only [State.bereave] at member
    split at member
    · exact List.mem_of_mem_erase member
    · exact member
  · intro k y live handler notClosing
    obtain ⟨z, live', rfl⟩ := client.mp live
    obtain ⟨t', tr', uploading, owner, data⟩ := inv.upload k z live' handler notClosing
    have different : t' ≠ t := by
      rintro rfl
      exact notClosing (owner ▸ (notNew tr' z uploading).1)
    exact ⟨t', tr', owner ▸ carry different uploading, owner, data⟩
  · intro t' uploaded
    obtain ⟨tr', x, uploading, handler⟩ := inv.uploaded t' uploaded
    have different : t' ≠ t := by
      rintro rfl
      simp [(notNew tr' x uploading).2] at uploaded
    exact ⟨tr', _, carry different uploading, handler⟩

theorem addClient (inv : Dispatches φ σ) (fresh : σ.client σ.next = none) :
    Dispatches φ σ.addClient := by
  have client : ∀ {k y}, σ.addClient.client k = some y ↔
      k = σ.next ∧ some {} = some y ∨ k ≠ σ.next ∧ σ.client k = some y :=
    put_eq_some_iff
  have carry : ∀ {t tr x}, σ.Uploading t tr x → σ.addClient.Uploading t tr x := by
    intro t tr x uploading
    refine ⟨uploading.found, client.mpr (.inr ⟨?_, uploading.owner⟩), uploading.last,
      uploading.alone, uploading.new⟩
    intro same
    simpa [same, fresh] using uploading.owner
  constructor
  · intro k y live act
    rcases client.mp live with ⟨_, made⟩ | ⟨_, live⟩
    · simp [← Option.some.inj made]
    · exact inv.active k y live act
  · exact inv.executor
  · exact inv.finished
  · intro k y t live member
    rcases client.mp live with ⟨_, made⟩ | ⟨_, live⟩
    · simp [← Option.some.inj made] at member
    · exact inv.replied k y t live member
  · intro k y live handler notClosing
    rcases client.mp live with ⟨_, made⟩ | ⟨_, live⟩
    · simp [← Option.some.inj made] at handler
    · obtain ⟨t, tr, uploading, rest⟩ := inv.upload k y live handler notClosing
      exact ⟨t, tr, carry uploading, rest⟩
  · intro t uploaded
    obtain ⟨tr, x, uploading, handler⟩ := inv.uploaded t uploaded
    exact ⟨tr, x, carry uploading, handler⟩

theorem dropClient (inv : Dispatches φ σ) {c : ClientId} {x : Client} (closing : φ.closing = some c)
    (live : σ.client c = some x) (noRequests : x.requests = []) :
    Dispatches { φ with closing := none, settled := false } (σ.dropClient c) := by
  have client : ∀ {k y}, (σ.dropClient c).client k = some y ↔ k ≠ c ∧ σ.client k = some y := by
    intro k y
    exact put_eq_some_iff.trans (by simp)
  have carry : ∀ {t tr y}, σ.Uploading t tr y → (σ.dropClient c).Uploading t tr y := by
    intro t tr y uploading
    refine ⟨uploading.found, client.mpr ⟨?_, uploading.owner⟩, uploading.last, uploading.alone,
      uploading.new⟩
    rintro same
    have owner := uploading.owner
    rw [same, live] at owner
    have last := uploading.last
    simp [← Option.some.inj owner, noRequests] at last
  constructor
  · exact fun k y live' => inv.active k y (client.mp live').2
  · exact inv.executor
  · exact inv.finished
  · exact fun k y t live' => inv.replied k y t (client.mp live').2
  · intro k y live' handler _
    obtain ⟨different, live'⟩ := client.mp live'
    obtain ⟨t, tr, uploading, rest⟩ := inv.upload k y live' handler
      (by rw [closing]; exact fun same => different (Option.some.inj same).symm)
    exact ⟨t, tr, carry uploading, rest⟩
  · intro t uploaded
    obtain ⟨tr, y, uploading, handler⟩ := inv.uploaded t uploaded
    exact ⟨tr, y, carry uploading, handler⟩

/-- Start reading something other than the data of a request. -/
theorem arm (inv : Dispatches φ σ) {c : ClientId} {handler : Handler} {b : BufId}
    (allowed : ∀ x, σ.client c = some x → x.wait4 ≠ some .any ∧
      ∀ t, x.wait4 = some (.tran t) → ∃ a, .dispatched a c t ∈ σ.log)
    (other : handler ≠ .sendToWorker) : Dispatches φ (σ.arm c handler b) := by
  refine inv.mapClient ?_ ?_ ?_ ?_ ?_
  · exact fun x live _ => allowed x live
  · exact fun x t live member => inv.replied c x t live member
  · intro x _ same
    exact absurd (Option.some.inj same) other
  · exact fun _ _ _ _ => id
  · intro x _ same
    exact absurd (Option.some.inj same) other

/-- What touches neither clients nor transactions, advertisements, links or dispatches. -/
theorem congr (inv : Dispatches φ σ)
    (client : ∀ c, (τ.client c).map Client.serving = (σ.client c).map Client.serving)
    (tran : τ.tran = σ.tran) (advert : τ.advert = σ.advert) (links : τ.links = σ.links)
    (log : τ.log = σ.log) : Dispatches φ τ :=
  inv.mono client (fun _ => by rw [tran]) (fun _ _ _ _ _ found => advert ▸ found)
    (fun _ _ _ uploading _ => links ▸ uploading.alone) (fun _ _ _ => by rw [log]) (fun _ => id)
    (fun _ => id) (fun _ => id) (fun _ => id)

theorem phase (inv : Dispatches φ σ) (run : ∀ c, φ'.run = some c → φ.run = some c)
    (fin : ∀ t, φ'.fin = some t → σ.Dispatched t)
    (closing : ∀ c, φ.closing = some c → φ'.closing = some c)
    (up : ∀ t, φ'.up = some t → φ.up = some t) : Dispatches φ' σ where
  active c x live act := inv.active c x live (act.imp id (run c))
  executor := inv.executor
  finished := fin
  replied := inv.replied
  upload c x live handler notClosing :=
    inv.upload c x live handler fun closed => notClosing (closing c closed)
  uploaded t uploaded := inv.uploaded t (up t uploaded)

theorem alloc (inv : Dispatches φ σ) (data : Bytes) : Dispatches φ (σ.allocBuf data) :=
  inv.congr (fun _ => rfl) rfl rfl rfl rfl

theorem nextCommand (inv : Dispatches φ σ) {c : ClientId}
    (allowed : ∀ x, σ.client c = some x → x.wait4 ≠ some .any ∧
      ∀ t, x.wait4 = some (.tran t) → ∃ a, .dispatched a c t ∈ σ.log) :
    Dispatches φ (σ.nextCommand c) :=
  (inv.alloc [0]).arm allowed (by decide)

/-- A client is rid of what it waits for. -/
theorem clearWait (inv : Dispatches φ σ) (c : ClientId) :
    Dispatches φ (σ.mapClient c fun x => { x with wait4 := none }) := by
  refine inv.mapClient ?_ ?_ ?_ ?_ ?_
  · simp
  · exact fun x t live member => inv.replied c x t live member
  · exact fun x live handler notClosing => inv.upload c x live handler notClosing
  · exact fun _ _ _ _ => id
  · exact fun _ _ handler => .inl handler

end Dispatches

theorem State.reply_eq (σ : State) (t : TranId) (tr : Transaction) (contents : Bytes) :
    σ.reply t tr contents =
      (((σ.write tr.client (replyFrame tr contents)).mapClient tr.client
        fun x => { x with wait4 := none }).nextCommand tr.client).delTran t tr := by
  simp only [State.reply, State.nextCommand, State.arm, State.allocBuf, State.mapClient,
    change_change, State.write, Function.comp_def]

namespace Dispatches

variable {φ φ' : Phase} {σ τ : State}

theorem reply (inv : Dispatches φ σ) (waits : WaitQueues σ) {t : TranId}
    {tr : Transaction} (found : σ.tran t = some tr) (contents : Bytes)
    (known : σ.Dispatched t) : Dispatches φ (σ.reply t tr contents) := by
  rw [State.reply_eq]
  have written : Dispatches φ (σ.write tr.client (replyFrame tr contents)) :=
    inv.congr (fun _ => rfl) rfl rfl rfl rfl
  have free := written.clearWait tr.client
  refine delTran (free.nextCommand ?_) ?_ found ?_
  · intro x live
    obtain ⟨y, _, rfl⟩ := change_eq_some_iff.mp live
    simp
  · exact waits.congr rfl rfl rfl (fun _ => rfl) (Nat.le_succ _)
  · intro tr' x uploading
    exact absurd known uploading.new

theorem assign (inv : Dispatches φ σ) {a : AdvertId} {v : Advert} {t : TranId}
    (frame : Bytes) (advert : σ.advert a = some v)
    (noUpload : ∀ tr x, σ.Uploading t tr x → x.handler ≠ some .sendToWorker)
    (noUp : φ.up ≠ some t) : Dispatches φ (σ.assign a v t frame) := by
  have seen : .dispatched a v.client t ∈ (σ.observe (.dispatched a v.client t)).log := by
    simp [State.observe]
  have recorded : Dispatches φ (σ.observe (.dispatched a v.client t)) :=
    inv.dispatched noUpload noUp
  have serving : Dispatches φ ((σ.observe (.dispatched a v.client t)).mapClient v.client
      fun x => { x with wait4 := some (.tran t) }) := by
    refine recorded.mapClient ?_ ?_ ?_ ?_ ?_
    · intro x _ _
      simp only [ne_eq, Option.some.injEq, reduceCtorEq, not_false_eq_true, Wait.tran.injEq,
        true_and]
      rintro _ rfl
      exact ⟨a, seen⟩
    · exact fun x t live member => recorded.replied v.client x t live member
    · exact fun x live handler notClosing => recorded.upload v.client x live handler notClosing
    · exact fun _ _ _ _ => id
    · exact fun _ _ handler => .inl handler
  have executing : Dispatches φ (((σ.observe (.dispatched a v.client t)).mapClient v.client
      fun x => { x with wait4 := some (.tran t) }).mapTran t
        fun tr => { tr with executor := some a }) := by
    refine serving.mapTran (fun _ => rfl) (fun _ _ => .inl rfl) ?_
    rintro tr b _ same
    obtain rfl := Option.some.inj same
    exact ⟨v.client, seen, fun w found => by rw [Option.some.inj (found.symm.trans advert)]⟩
  have written : Dispatches φ ((((σ.observe (.dispatched a v.client t)).mapClient v.client
      fun x => { x with wait4 := some (.tran t) }).mapTran t
        fun tr => { tr with executor := some a }).write v.client frame) :=
    executing.congr (fun _ => rfl) rfl rfl rfl rfl
  refine written.nextCommand ?_
  intro x live
  obtain ⟨y, _, rfl⟩ := change_eq_some_iff.mp live
  simp only [↓reduceIte, ne_eq, Option.some.injEq, reduceCtorEq, not_false_eq_true,
    Wait.tran.injEq, true_and]
  rintro _ rfl
  exact ⟨a, seen⟩

theorem begin (inv : Dispatches {} σ) {c : ClientId} {x : Client} {handler : Handler} {b : BufId}
    {filled : Bytes} (live : σ.client c = some x) (reading : x.handler = some handler) :
    Dispatches (.called c x handler b) (σ.begin c handler b filled) := by
  have resting : Dispatches {} (σ.mapClient c fun x =>
      { x with handler := none, input := none, used := 0 }) := by
    refine inv.mapClient ?_ ?_ ?_ ?_ ?_
    · simp
    · exact fun x t live member => inv.replied c x t live member
    · simp
    · exact fun _ _ _ _ => id
    · simp
  have called : Dispatches {} (σ.begin c handler b filled) :=
    resting.mono (fun _ => rfl) (fun _ => rfl) (fun _ _ _ _ _ => id)
      (fun _ _ _ uploading _ => uploading.alone)
      (by simp [State.begin, State.observe, State.mapClient]) (fun _ => id) (fun _ => id)
      (fun _ => id) (fun _ => id)
  have undispatched : ∀ t, (σ.begin c handler b filled).Dispatched t ↔ σ.Dispatched t := by
    simp [State.Dispatched, State.begin, State.observe, State.mapClient]
  refine ⟨?_, called.executor, by simp [Phase.called], called.replied, called.upload, ?_⟩
  · intro k y live' act
    rcases act with busy | running
    · exact called.active k y live' (.inl busy)
    · obtain rfl := Option.some.inj running
      obtain ⟨z, live'', rfl⟩ := change_eq_some_iff.mp live'
      simpa [State.begin, State.observe, State.mapClient] using
        inv.active c z live'' (.inl (by simp [Option.some.inj (live''.symm.trans live), reading]))
  · intro t last
    simp only [Phase.called] at last
    split at last
    · rename_i same
      obtain ⟨t', tr, uploading, owner, _⟩ := inv.upload c x live (same ▸ reading) (by simp)
      obtain rfl := Option.some.inj (uploading.last.symm.trans last)
      refine ⟨tr, _, ⟨uploading.found, change_eq_some_iff.mpr ⟨x, uploading.owner, rfl⟩, ?_,
        uploading.alone, ?_⟩, ?_⟩
      · rw [if_pos owner]
        exact last
      · rw [undispatched]
        exact uploading.new
      · simp [owner]
    · cases last

theorem armUpload (inv : Dispatches φ σ) {c : ClientId} {x : Client} {t : TranId}
    {tr : Transaction} (running : φ.run = some c) (up : φ.up = some t)
    (live : σ.client c = some x) (found : σ.tran t = some tr) (owner : tr.client = c) :
    Dispatches { φ with run := none, up := none } (σ.arm c .sendToWorker tr.data) := by
  obtain ⟨tr', x', uploading, _⟩ := inv.uploaded t up
  obtain rfl := Option.some.inj (uploading.found.symm.trans found)
  obtain rfl := Option.some.inj (live.symm.trans (owner ▸ uploading.owner))
  have resting : Dispatches { φ with run := none, up := none } σ :=
    inv.phase (by simp) inv.finished (fun _ => id) (by simp)
  refine resting.mapClient ?_ ?_ ?_ ?_ ?_
  · exact fun y live' _ => inv.active c y live' (.inr running)
  · exact fun y t live' member => inv.replied c y t live' member
  · intro y live' _ _
    obtain rfl := Option.some.inj (live.symm.trans live')
    exact ⟨t, tr', uploading, owner, rfl⟩
  · exact fun _ _ _ _ => id
  · exact fun _ _ _ => .inr rfl

theorem dismiss (inv : Dispatches φ σ) (waits : WaitQueues σ) {adverts : List AdvertId}
    (dismissable : σ.Dismissable adverts) : Dispatches φ (σ.dismiss adverts) := by
  refine inv.mono (fun _ => rfl) (fun _ => rfl) (fun _ _ _ _ _ => id) ?_ (fun _ _ _ => Iff.rfl)
    (fun _ => id) (fun _ => id) (fun _ => id) (fun _ => id)
  intro t tr x uploading _
  have same := waits.dismiss_tran dismissable t
  exact ⟨same.1.trans uploading.alone.1, same.2.trans uploading.alone.2⟩

theorem setReturn (inv : Dispatches φ σ) {t : TranId} {b : BufId} {rval : BitVec 32}
    {rcode : BitVec 64} {data : Bytes} (known : σ.Dispatched t) :
    Dispatches φ (σ.setReturn t b rval rcode data) := by
  have stored : Dispatches φ (σ.mapTran t fun tr => { tr with rval, rcode }) :=
    inv.mapTran (fun _ => rfl) (fun _ _ => .inl rfl) (inv.executor t)
  have moved : Dispatches φ (((σ.mapTran t fun tr => { tr with rval, rcode }).freeBuf b).allocBuf
      data) :=
    stored.congr (fun _ => rfl) rfl rfl rfl rfl
  exact moved.mapTran (fun _ => rfl) (fun _ _ => .inr known) (moved.executor t)

theorem finish (inv : Dispatches φ σ) {c : ClientId} {t : TranId}
    {result : Transaction → Transaction} (known : σ.Dispatched t)
    (settled : Bool) (same : ∀ tr, (result tr).client = tr.client ∧ (result tr).data = tr.data) :
    Dispatches { φ with fin := some t, settled } (σ.finish c t result) := by
  have free := inv.clearWait c
  refine phase (free.mapTran (fun tr => (same tr).1) (fun tr _ => .inl (same tr).2) (by simp))
    (fun _ => id) ?_ (fun _ => id) (fun _ => id)
  intro t' fin
  obtain rfl := Option.some.inj fin
  exact known

theorem effect {σ₀ : State} {e : Event} (inv : Dispatches φ σ) (fresh : Fresh σ)
    (waits : WaitQueues σ) (registry : Registry φ σ) (own : Ownership σ)
    (eff : Effect σ₀ e ⟨φ, σ⟩ ⟨φ', τ⟩) : Dispatches φ' τ := by
  have freshTran := waits.fresh_tran (Nat.le_succ σ.next)
  cases eff with
  | connect =>
      refine (inv.addClient (fresh.client_next registry)).nextCommand ?_
      intro x live
      rcases put_eq_some_iff.mp live with ⟨_, made⟩ | ⟨different, _⟩
      · simp [← Option.some.inj made]
      · exact absurd rfl different
  | fill => exact inv.congr (fun _ => change_map fun _ => rfl) rfl rfl rfl rfl
  | begin _ live into reading => exact inv.begin live reading
  | call =>
      exact inv.mono (fun _ => rfl) (fun _ => rfl) (fun _ _ _ _ _ => id)
        (fun _ _ _ uploading _ => uploading.alone) (by simp [State.observe]) (fun _ => id)
        (fun _ => id) (fun _ => id) (fun _ => id)
  | write => exact inv.congr (fun _ => rfl) rfl rfl rfl rfl
  | release | resize | dropService =>
      exact inv.mono (fun _ => rfl) (fun _ => rfl) (fun _ _ _ _ _ => id)
        (fun _ _ _ uploading _ => uploading.alone) (fun _ _ _ => Iff.rfl) (fun _ => id)
        (fun _ => id) (fun _ => id) (fun _ => id)
  | armHeader running _ _ _ _ _ fixed =>
      refine phase (inv.arm (fun x live => inv.active _ x live (.inr running)) ?_) (by simp)
        inv.finished (fun _ => id) (fun _ => id)
      rintro rfl
      simp [Handler.ownsData] at fixed
  | next running => exact inv.nextCommand fun x live => inv.active _ x live (.inr running)
  | submit _ _ live idle _ client _ new =>
      subst client
      exact inv.submit fresh freshTran live idle new
  | armUpload running up live idle found owner => exact inv.armUpload running up live found owner
  | enqueue up found fits linkable =>
      obtain ⟨svc, current⟩ := Option.isSome_iff_exists.mp linkable.1
      obtain ⟨tr', x', uploading', handler'⟩ := inv.uploaded _ up
      refine inv.mono (fun _ => rfl) (fun _ => rfl) (fun _ _ _ _ _ => id) ?_
        (fun _ _ _ => Iff.rfl) (fun _ => id) (fun _ => id) (fun _ => id) (by simp)
      rintro t tr x uploading (handler | impossible)
      · refine waits.alone_enqueue current fits ?_ uploading.alone
        rintro rfl
        obtain rfl := Option.some.inj (uploading.found.symm.trans uploading'.found)
        obtain rfl := Option.some.inj (uploading.owner.symm.trans uploading'.owner)
        exact handler' handler
      · simp at impossible
  | assignUp up found _ _ _ _ advert _ _ dismissable =>
      have noUp : Dispatches { φ with up := none } σ :=
        inv.phase (fun _ => id) inv.finished (fun _ => id) (by simp)
      refine (noUp.dismiss waits dismissable).assign _ advert ?_ (by simp)
      intro tr x uploading
      obtain ⟨tr', x', uploading', handler'⟩ := inv.uploaded _ up
      obtain rfl := Option.some.inj (uploading'.found.symm.trans uploading.found)
      obtain rfl := Option.some.inj (uploading'.owner.symm.trans uploading.owner)
      exact handler'
  | assignWork _ _ _ _ _ advert queued _ first _ _ dismissable =>
      have notAlone := WaitQueues.not_alone_of_queued (waits.queued_of_first queued first)
      refine (inv.dismiss waits dismissable).assign _ advert ?_ ?_
      · intro tr x uploading
        exact absurd ⟨(waits.dismiss_tran dismissable _).1.symm.trans uploading.alone.1,
          (waits.dismiss_tran dismissable _).2.symm.trans uploading.alone.2⟩ notAlone
      · intro up
        obtain ⟨_, _, uploading, _⟩ := inv.uploaded _ up
        exact notAlone uploading.alone
  | rest => exact inv.phase (by simp) inv.finished (fun _ => id) (fun _ => id)
  | park _ _ _ _ fits linkable =>
      refine inv.mono (fun _ => rfl) (fun _ => rfl) (fun _ _ _ _ _ => id) ?_
        (fun _ _ _ => Iff.rfl) (fun _ => id) (fun _ => id) (fun _ => id) (fun _ => id)
      intro t tr x uploading _
      have same := waits.park_tran fits linkable t
      exact ⟨same.1.trans uploading.alone.1, same.2.trans uploading.alone.2⟩
  | block running live idle =>
      have resting : Dispatches { φ with run := none } σ :=
        inv.phase (by simp) inv.finished (fun _ => id) (fun _ => id)
      refine resting.mapClient ?_ ?_ ?_ ?_ ?_
      · intro x' live' act
        obtain rfl := Option.some.inj (live.symm.trans live')
        simp [idle.1] at act
      · exact fun x t live member => inv.replied _ x t live member
      · exact fun x live handler notClosing => inv.upload _ x live handler notClosing
      · exact fun _ _ _ _ => id
      · exact fun _ _ handler => .inl handler
  | replyQueued _ _ live queued _ _ deletable =>
      exact inv.reply waits deletable.live _ (inv.replied _ _ _ live queued)
  | replyWaiting fin _ _ _ deletable =>
      refine phase (inv.reply waits deletable.live _ (inv.finished _ fin)) (fun _ => id) (by simp)
        (fun _ => id) (fun _ => id)
  | requeue fin found =>
      have known := inv.finished _ fin
      have noFin : Dispatches { φ with fin := none } σ :=
        inv.phase (fun _ => id) (by simp) (fun _ => id) (fun _ => id)
      refine noFin.mapClient ?_ ?_ ?_ ?_ ?_
      · exact fun x live act => inv.active _ x live act
      · intro x t' live member
        rcases List.mem_append.mp member with member | last
        · exact inv.replied _ x t' live (List.mem_of_mem_erase member)
        · rwa [List.mem_singleton.mp last]
      · exact fun x live handler notClosing => inv.upload _ x live handler notClosing
      · intro x t' live new last
        refine getLast?_erase_of_ne last ?_
        rintro rfl
        exact new known
      · exact fun _ _ handler => .inl handler
  | setReturn running live serves found =>
      obtain ⟨a, seen⟩ := (inv.active _ _ live (.inr running)).2 _ serves
      exact inv.setReturn ⟨a, _, seen⟩
  | armReturn running =>
      exact (inv.arm (fun x live => inv.active _ x live (.inr running)) (by decide)).phase (by simp)
        inv.finished (fun _ => id) (fun _ => id)
  | finish running _ live serves =>
      obtain ⟨a, seen⟩ := (inv.active _ _ live (.inr running)).2 _ serves
      exact inv.finish ⟨a, _, seen⟩ φ.settled fun _ => ⟨rfl, rfl⟩
  | fail _ _ _ _ found executor =>
      obtain ⟨c, seen, _⟩ := inv.executor _ _ _ found executor
      refine inv.finish ⟨_, c, seen⟩ true ?_
      exact fun _ => ⟨rfl, rfl⟩
  | found =>
      refine inv.mono (fun _ => rfl) (fun _ => rfl) (fun _ _ _ _ _ => id) ?_
        (fun _ _ _ => Iff.rfl) (fun _ => id) (fun _ => id) (fun _ => id) (fun _ => id)
      exact fun t tr x uploading _ => (Links.init_alone_iff (by simp)).mpr uploading.alone
  | offer =>
      refine inv.mono (fun _ => change_map fun _ => rfl) (fun _ => rfl) ?_ ?_
        (fun _ _ _ => Iff.rfl) (fun _ => id) (fun _ => id) (fun _ => id) (fun _ => id)
      · intro a c t v seen current
        rcases put_eq_some_iff.mp current with ⟨rfl, _⟩ | ⟨_, current⟩
        · exact absurd (fresh.log _ c t seen).1 (Nat.lt_irrefl _)
        · exact current
      · exact fun t tr x uploading _ => (Links.init_alone_iff (by simp)).mpr uploading.alone
  | close _ quiet =>
      rcases quiet with rfl | rfl <;> exact inv.phase (by simp) (by simp) (by simp) (by simp)
  | detach _ _ _ _ _ advert =>
      refine mono inv (fun _ => change_map fun _ => rfl) (fun _ => rfl) (fun _ _ _ _ _ => id) ?_
        (fun _ _ _ => Iff.rfl) (fun _ => id) (fun _ => id) (fun _ => id) (fun _ => id)
      intro t tr x uploading _
      have same := waits.unlink_adv_tran advert t
      exact ⟨same.1.trans uploading.alone.1, same.2.trans uploading.alone.2⟩
  | spare | orphan => exact inv.phase (fun _ => id) inv.finished (fun _ => id) (fun _ => id)
  | sweep _ queued _ first deletable =>
      refine inv.delTran waits deletable.live ?_
      intro tr' x uploading
      exact absurd uploading.alone (WaitQueues.not_alone_of_queued
        (waits.queued_of_first queued first))
  | dropAdvert =>
      refine inv.mono (fun _ => rfl) (fun _ => rfl) ?_ (fun _ _ _ uploading _ => uploading.alone)
        (fun _ _ _ => Iff.rfl) (fun _ => id) (fun _ => id) (fun _ => id) (fun _ => id)
      intro a c t v _ current
      rcases put_eq_some_iff.mp current with ⟨_, impossible⟩ | ⟨_, current⟩
      · cases impossible
      · exact current
  | purge closing _ _ noUp live _ mine deletable =>
      refine inv.delTran waits deletable.live ?_
      intro tr' x' uploading
      have owner := own.owner_eq live (List.mem_append.mpr mine) uploading.found
      exact ⟨owner ▸ closing, noUp⟩
  | dropClient closing _ _ live _ noRequests => exact inv.dropClient closing live noRequests
  | done quiet =>
      rcases quiet with rfl | ⟨c, rfl⟩ | ⟨c, rfl⟩ <;>
        exact inv.phase (by simp) (by simp) (by simp) (by simp)

end Dispatches

end Switchboard
end Xatmi
