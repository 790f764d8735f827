import Xatmi.Switchboard.Dispatch

/-!
# Buffers

Who may use which buffer: every transaction has its data, which is nobody else's; the buffer in a
handler's hands and the buffers that commands and fixed parts are read into belong to one owner
each. Only a worker that is sending a result reads into a buffer that is not its own.
-/

namespace Xatmi
namespace Switchboard

/-- Buffer `b` is allocated and holds no transaction's data. -/
structure State.Private (σ : State) (b : BufId) : Prop where
  room : ∃ contents, σ.buf b = some contents
  apart : ∀ t tr, σ.tran t = some tr → tr.data ≠ b

/-- Client `x` reads a command or a fixed part into buffer `b`. -/
def Client.Reads (x : Client) (b : BufId) : Prop :=
  x.input = some b ∧ ∃ handler, x.handler = some handler ∧ handler.ownsData = false

/-- The use of buffers, in every reachable memory. -/
structure Buffers (φ : Phase) (σ : State) : Prop where
  data : ∀ t tr, σ.tran t = some tr → ∃ contents, σ.buf tr.data = some contents
  apart : ∀ t t' tr tr', σ.tran t = some tr → σ.tran t' = some tr' → tr.data = tr'.data → t = t'
  held : ∀ b, φ.held = some b →
    σ.Private b ∧ ∀ c x, σ.client c = some x → x.input ≠ some b
  reading : ∀ c x b, σ.client c = some x → x.Reads b →
    σ.Private b ∧ ∀ k y, σ.client k = some y → y.input = some b → k = c
  space : ∀ c x b contents, σ.client c = some x → x.input = some b → σ.buf b = some contents →
    x.used < contents.length
  old : ∀ c x b, σ.client c = some x → x.input = some b → b < σ.next

/-- What the buffers have to do with a client. -/
def Client.intake (x : Client) : Option Handler × Option BufId × Nat :=
  (x.handler, x.input, x.used)

theorem length_overwrite {contents piece : Bytes} {used : Nat}
    (fits : used + piece.length ≤ contents.length) :
    (overwrite contents used piece).length = contents.length := by
  simp only [overwrite, List.length_append, List.length_take, List.length_drop]
  omega

namespace Buffers

variable {φ φ' : Phase} {σ τ : State}

theorem start : Buffers {} .start := by
  constructor <;> simp [State.start]

theorem reads_of_intake {x y : Client} {b : BufId} (same : x.intake = y.intake)
    (reads : y.Reads b) :
    x.Reads b := by
  simp only [Client.intake, Prod.mk.injEq] at same
  rw [Client.Reads, same.1, same.2.1]
  exact reads

/-- Effects that allocate and free nothing, keep the data of transactions and make nobody read. -/
theorem mono (inv : Buffers φ σ)
    (tran : ∀ t tr, τ.tran t = some tr → ∃ tr', σ.tran t = some tr' ∧ tr'.data = tr.data)
    (client : ∀ c y b, τ.client c = some y → y.input = some b →
      ∃ x, σ.client c = some x ∧ x.intake = y.intake)
    (buf : τ.buf = σ.buf) (next : σ.next ≤ τ.next)
    (held : ∀ b, φ'.held = some b → φ.held = some b) : Buffers φ' τ := by
  have private_ : ∀ {b}, σ.Private b → τ.Private b := by
    rintro b ⟨room, apart⟩
    refine ⟨buf ▸ room, ?_⟩
    intro t tr found
    obtain ⟨tr', found', same⟩ := tran t tr found
    exact same ▸ apart t tr' found'
  have input : ∀ {c y b}, τ.client c = some y → y.input = some b →
      ∃ x, σ.client c = some x ∧ x.input = some b ∧ x.used = y.used := by
    intro c y b live into
    obtain ⟨x, live', same⟩ := client c y b live into
    simp only [Client.intake, Prod.mk.injEq] at same
    exact ⟨x, live', same.2.1.trans into, same.2.2⟩
  constructor
  · intro t tr found
    obtain ⟨tr', found', same⟩ := tran t tr found
    rw [buf, ← same]
    exact inv.data t tr' found'
  · intro t t' tr tr' found found' same
    obtain ⟨old, before, eq⟩ := tran t tr found
    obtain ⟨old', before', eq'⟩ := tran t' tr' found'
    exact inv.apart t t' old old' before before' (by rw [eq, eq', same])
  · intro b holds
    obtain ⟨own, unread⟩ := inv.held b (held b holds)
    refine ⟨private_ own, ?_⟩
    intro c y live into
    obtain ⟨x, live', into', _⟩ := input live into
    exact unread c x live' into'
  · intro c y b live reads
    obtain ⟨x, live', same⟩ := client c y b live reads.1
    obtain ⟨own, unique⟩ := inv.reading c x b live' (reads_of_intake same reads)
    refine ⟨private_ own, ?_⟩
    intro k z other into
    obtain ⟨w, other', into', _⟩ := input other into
    exact unique k w other' into'
  · intro c y b contents live into room
    obtain ⟨x, live', into', used⟩ := input live into
    rw [← used]
    exact inv.space c x b contents live' into' (buf ▸ room)
  · intro c y b live into
    obtain ⟨x, live', into', _⟩ := input live into
    exact (inv.old c x b live' into').trans_le next

/-- The same when clients and transactions are changed in place. -/
theorem congr (inv : Buffers φ σ)
    (tran : ∀ t, (τ.tran t).map Transaction.data = (σ.tran t).map Transaction.data)
    (client : ∀ c, (τ.client c).map Client.intake = (σ.client c).map Client.intake)
    (buf : τ.buf = σ.buf) (next : σ.next ≤ τ.next)
    (held : ∀ b, φ'.held = some b → φ.held = some b) : Buffers φ' τ :=
  inv.mono (fun t _ found => exists_of_map_eq (tran t) found)
    (fun c _ _ live _ => exists_of_map_eq (client c) live) buf next held

theorem phase (inv : Buffers φ σ) (held : ∀ b, φ'.held = some b → φ.held = some b) :
    Buffers φ' σ :=
  inv.congr (fun _ => rfl) (fun _ => rfl) rfl (Nat.le_refl _) held

/-- Freeing a buffer that nothing refers to any more. -/
theorem free (inv : Buffers φ σ) {b : BufId} (data : ∀ t tr, σ.tran t = some tr → tr.data ≠ b)
    (held : φ.held ≠ some b)
    (unread : ∀ c x, σ.client c = some x → ¬x.Reads b) : Buffers φ (σ.freeBuf b) := by
  have kept : ∀ {b' : BufId} {contents : Bytes}, b' ≠ b →
      σ.buf b' = some contents → (σ.freeBuf b).buf b' = some contents :=
    fun different room => put_eq_some_iff.mpr (.inr ⟨different, room⟩)
  have before : ∀ {b' : BufId} {contents : Bytes}, (σ.freeBuf b).buf b' = some contents →
      σ.buf b' = some contents :=
    fun room => (put_none_eq_some_iff.mp room).2
  have private_ : ∀ {b'}, b' ≠ b → σ.Private b' → (σ.freeBuf b).Private b' := by
    rintro b' different ⟨⟨contents, room⟩, apart⟩
    exact ⟨⟨contents, kept different room⟩, apart⟩
  constructor
  · intro t tr found
    obtain ⟨contents, room⟩ := inv.data t tr found
    exact ⟨contents, kept (data t tr found) room⟩
  · exact inv.apart
  · intro b' holds
    refine ⟨private_ ?_ (inv.held b' holds).1, (inv.held b' holds).2⟩
    rintro rfl
    exact held holds
  · intro c x b' live reads
    refine ⟨private_ ?_ (inv.reading c x b' live reads).1, (inv.reading c x b' live reads).2⟩
    rintro rfl
    exact unread c x live reads
  · exact fun c x b' contents live into room => inv.space c x b' contents live into (before room)
  · exact inv.old

/-- Storing a piece of input. -/
theorem store (inv : Buffers φ σ) {b : BufId} {contents new : Bytes}
    (room : σ.buf b = some contents) (length : new.length = contents.length) :
    Buffers φ { σ with buf := put σ.buf b (some new) } := by
  have kept : ∀ {b' : BufId}, (∃ old, σ.buf b' = some old) →
      ∃ old, put σ.buf b (some new) b' = some old := by
    rintro b' ⟨old, room'⟩
    by_cases same : b' = b
    · exact ⟨new, put_eq_some_iff.mpr (.inl ⟨same, rfl⟩)⟩
    · exact ⟨old, put_eq_some_iff.mpr (.inr ⟨same, room'⟩)⟩
  have private_ : ∀ {b'}, σ.Private b' →
      ({ σ with buf := put σ.buf b (some new) } : State).Private b' :=
    fun own => ⟨kept own.room, own.apart⟩
  constructor
  · exact fun t tr found => kept (inv.data t tr found)
  · exact inv.apart
  · exact fun b' holds => ⟨private_ (inv.held b' holds).1, (inv.held b' holds).2⟩
  · exact fun c x b' live reads =>
      ⟨private_ (inv.reading c x b' live reads).1, (inv.reading c x b' live reads).2⟩
  · intro c x b' contents' live into room'
    rcases put_eq_some_iff.mp room' with ⟨rfl, made⟩ | ⟨_, room'⟩
    · rw [← Option.some.inj made, length]
      exact inv.space c x b' contents live into room
    · exact inv.space c x b' contents' live into room'
  · exact inv.old

theorem alloc (inv : Buffers φ σ) (fresh : ∀ b contents, σ.buf b = some contents → b < σ.next)
    (data : Bytes) :
    Buffers φ (σ.allocBuf data) := by
  have kept : ∀ {b' : BufId} {contents : Bytes}, σ.buf b' = some contents →
      (σ.allocBuf data).buf b' = some contents := by
    intro b' contents room
    exact put_eq_some_iff.mpr (.inr ⟨(fresh b' contents room).ne, room⟩)
  have private_ : ∀ {b'}, σ.Private b' → (σ.allocBuf data).Private b' :=
    fun own => ⟨own.room.imp fun _ => kept, own.apart⟩
  constructor
  · exact fun t tr found => (inv.data t tr found).imp fun _ => kept
  · exact inv.apart
  · exact fun b' holds => ⟨private_ (inv.held b' holds).1, (inv.held b' holds).2⟩
  · exact fun c x b' live reads =>
      ⟨private_ (inv.reading c x b' live reads).1, (inv.reading c x b' live reads).2⟩
  · intro c x b' contents' live into room'
    rcases put_eq_some_iff.mp room' with ⟨rfl, _⟩ | ⟨_, room'⟩
    · exact absurd (inv.old c x _ live into) (Nat.lt_irrefl _)
    · exact inv.space c x b' contents' live into room'
  · exact fun c x b' live into => (inv.old c x b' live into).trans (Nat.lt_succ_self _)

theorem private_alloc (inv : Buffers φ σ)
    (fresh : ∀ b contents, σ.buf b = some contents → b < σ.next) (data : Bytes) :
    (σ.allocBuf data).Private σ.next := by
  refine ⟨⟨data, put_eq_some_iff.mpr (.inl ⟨rfl, rfl⟩)⟩, ?_⟩
  intro t tr found
  obtain ⟨contents, room⟩ := inv.data t tr found
  exact (fresh _ contents room).ne

/-- Client `c` is given something to read. -/
theorem arm (inv : Buffers φ σ) {c : ClientId} {handler : Handler} {b : BufId} {contents : Bytes}
    (room : σ.buf b = some contents) (nonempty : contents ≠ []) (given : b < σ.next)
    (own : handler.ownsData = false → σ.Private b ∧
      ∀ k y, σ.client k = some y → k ≠ c → y.input ≠ some b)
    (unheld : φ.held ≠ some b)
    (unread : ∀ k y, σ.client k = some y → k ≠ c → ¬y.Reads b) :
    Buffers φ (σ.arm c handler b) := by
  have client : ∀ {k y}, (σ.arm c handler b).client k = some y →
      ∃ x, σ.client k = some x ∧
        (k = c ∧ y = { x with handler := some handler, input := some b, used := 0 } ∨
          k ≠ c ∧ y = x) := by
    intro k y live
    obtain ⟨x, live', rfl⟩ := change_eq_some_iff.mp live
    refine ⟨x, live', ?_⟩
    split
    · exact .inl ⟨‹_›, rfl⟩
    · exact .inr ⟨‹_›, rfl⟩
  constructor
  · exact inv.data
  · exact inv.apart
  · intro b' holds
    refine ⟨⟨(inv.held b' holds).1.room, (inv.held b' holds).1.apart⟩, ?_⟩
    intro k y live
    obtain ⟨x, live', ⟨_, rfl⟩ | ⟨_, rfl⟩⟩ := client live
    · rintro same
      obtain rfl := Option.some.inj same
      exact unheld holds
    · exact (inv.held b' holds).2 k y live'
  · intro k y b' live reads
    obtain ⟨x, live', ⟨rfl, rfl⟩ | ⟨different, rfl⟩⟩ := client live
    · obtain ⟨into, _, same, fixed⟩ := reads
      obtain rfl := Option.some.inj into
      obtain rfl := Option.some.inj same
      obtain ⟨⟨room, apart⟩, unique⟩ := own fixed
      refine ⟨⟨room, apart⟩, ?_⟩
      intro k' y' other into'
      by_contra different
      obtain ⟨x', other', ⟨same, _⟩ | ⟨_, rfl⟩⟩ := client other
      · exact different same
      · exact unique k' y' other' different into'
    · obtain ⟨⟨room, apart⟩, unique⟩ := inv.reading k y b' live' reads
      refine ⟨⟨room, apart⟩, ?_⟩
      intro k' y' other into'
      obtain ⟨x', other', ⟨rfl, rfl⟩ | ⟨_, rfl⟩⟩ := client other
      · obtain rfl := Option.some.inj into'
        exact absurd reads (unread k y live' different)
      · exact unique k' y' other' into'
  · intro k y b' contents' live into room'
    obtain ⟨x, live', ⟨rfl, rfl⟩ | ⟨_, rfl⟩⟩ := client live
    · obtain rfl := Option.some.inj into
      obtain rfl := Option.some.inj (room.symm.trans room')
      exact List.length_pos_iff.mpr nonempty
    · exact inv.space k y b' contents' live' into room'
  · intro k y b' live into
    obtain ⟨x, live', ⟨rfl, rfl⟩ | ⟨_, rfl⟩⟩ := client live
    · obtain rfl := Option.some.inj into
      exact given
    · exact inv.old k y b' live' into

theorem armData (inv : Buffers φ σ)
    (fresh : ∀ b contents, σ.buf b = some contents → b < σ.next) {c : ClientId} {handler : Handler}
    {t : TranId} {tr : Transaction} {contents : Bytes} (found : σ.tran t = some tr)
    (room : σ.buf tr.data = some contents) (nonempty : contents ≠ [])
    (owns : handler.ownsData = true) : Buffers φ (σ.arm c handler tr.data) := by
  refine inv.arm room nonempty (fresh _ _ room) (by simp [owns]) ?_ ?_
  · exact fun holds => (inv.held _ holds).1.apart t tr found rfl
  · exact fun k y live _ reads => (inv.reading k y _ live reads).1.apart t tr found rfl

/-- A handler takes a buffer that is nobody's. -/
theorem hold (inv : Buffers φ σ) {b : BufId} (own : σ.Private b)
    (unread : ∀ c x, σ.client c = some x → x.input ≠ some b) :
    Buffers { φ with held := some b } σ := by
  refine ⟨inv.data, inv.apart, ?_, inv.reading, inv.space, inv.old⟩
  intro b' holds
  obtain rfl := Option.some.inj holds
  exact ⟨own, unread⟩

theorem nextCommand (inv : Buffers φ σ) (fresh : ∀ b contents, σ.buf b = some contents → b < σ.next)
    (c : ClientId) :
    Buffers φ (σ.nextCommand c) := by
  have unread : ∀ k y, σ.client k = some y → y.input ≠ some σ.next :=
    fun k y live into => absurd (inv.old k y _ live into) (Nat.lt_irrefl _)
  refine (inv.alloc fresh [0]).arm (put_eq_some_iff.mpr (.inl ⟨rfl, rfl⟩)) (by simp)
    (Nat.lt_succ_self _) ?_ ?_ ?_
  · exact fun _ => ⟨inv.private_alloc fresh [0], fun k y live _ => unread k y live⟩
  · intro holds
    obtain ⟨contents, room⟩ := (inv.held _ holds).1.room
    exact absurd (fresh _ contents room) (Nat.lt_irrefl _)
  · exact fun k y live _ reads => unread k y live reads.1

theorem dropData (inv : Buffers φ σ) {t : TranId} {tr : Transaction} (found : σ.tran t = some tr) :
    Buffers φ ({ σ with tran := put σ.tran t none }.freeBuf tr.data) := by
  have gone : Buffers φ { σ with tran := put σ.tran t none } := by
    refine inv.mono ?_ (fun _ y _ live _ => ⟨y, live, rfl⟩) rfl (Nat.le_refl _) (fun _ => id)
    intro t' tr' found'
    exact ⟨tr', (put_none_eq_some_iff.mp found').2, rfl⟩
  refine gone.free ?_ ?_ ?_
  · intro t' tr' found' same
    obtain ⟨different, found'⟩ := put_none_eq_some_iff.mp found'
    exact different (inv.apart t' t tr' tr found' found same)
  · intro holds
    exact (inv.held _ holds).1.apart t tr found rfl
  · intro c x live reads
    exact (inv.reading c x _ live reads).1.apart t tr found rfl

theorem delTran (inv : Buffers φ σ) {t : TranId} {tr : Transaction} (found : σ.tran t = some tr) :
    Buffers φ (σ.delTran t tr) := by
  refine (inv.dropData found).congr (fun _ => rfl) ?_ rfl (Nat.le_refl _) (fun _ => id)
  intro c
  simp only [State.delTran, Option.map_map]
  rfl

theorem reply (inv : Buffers φ σ) (fresh : ∀ b contents, σ.buf b = some contents → b < σ.next)
    {t : TranId} {tr : Transaction} (found : σ.tran t = some tr) (contents : Bytes) :
    Buffers φ (σ.reply t tr contents) := by
  have written : Buffers φ (σ.write tr.client (replyFrame tr contents)) :=
    inv.congr (fun _ => rfl) (fun _ => rfl) rfl (Nat.le_refl _) (fun _ => id)
  refine delTran ?_ found
  exact (written.nextCommand fresh tr.client).congr (fun _ => rfl)
    (fun _ => change_map fun _ => rfl) rfl (Nat.le_refl _) (fun _ => id)

theorem assign (inv : Buffers φ σ) (fresh : ∀ b contents, σ.buf b = some contents → b < σ.next)
    (a : AdvertId) (v : Advert) (t : TranId) (frame : Bytes) :
    Buffers φ (σ.assign a v t frame) := by
  have serving : Buffers φ
      ((((σ.mapClient v.client fun x => { x with wait4 := some (.tran t) }).mapTran t fun tr =>
        { tr with executor := some a }).observe (.dispatched a v.client t)).write v.client frame) :=
    inv.congr (fun _ => change_map fun _ => rfl) (fun _ => change_map fun _ => rfl) rfl
      (Nat.le_refl _) (fun _ => id)
  exact serving.nextCommand fresh v.client

/-- Transaction `t` is given a buffer that was nobody's. -/
theorem own (inv : Buffers φ σ) {b : BufId} {t : TranId} (private_ : σ.Private b)
    (unheld : φ.held ≠ some b) (unread : ∀ c x, σ.client c = some x → x.input ≠ some b)
    (tran : ∀ t' tr', τ.tran t' = some tr' →
      t' = t ∧ tr'.data = b ∨ ∃ old, σ.tran t' = some old ∧ old.data = tr'.data)
    (client : ∀ c, (τ.client c).map Client.intake = (σ.client c).map Client.intake)
    (buf : τ.buf = σ.buf) (next : σ.next ≤ τ.next) : Buffers φ τ := by
  have keep : Buffers φ { τ with tran := σ.tran } :=
    inv.congr (fun _ => rfl) client buf next (fun _ => id)
  have unread : ∀ c y, τ.client c = some y → y.input ≠ some b := by
    intro c y live
    obtain ⟨x, live', same⟩ := exists_of_map_eq (client c) live
    simp only [Client.intake, Prod.mk.injEq] at same
    exact same.2.1 ▸ unread c x live'
  have other : ∀ {b'}, b' ≠ b → σ.Private b' → τ.Private b' := by
    rintro b' different ⟨room, apart⟩
    refine ⟨buf ▸ room, ?_⟩
    intro t' tr' found
    rcases tran t' tr' found with ⟨_, data⟩ | ⟨old, before, same⟩
    · exact data ▸ different.symm
    · exact same ▸ apart t' old before
  constructor
  · intro t' tr' found
    rw [buf]
    rcases tran t' tr' found with ⟨_, data⟩ | ⟨old, before, same⟩
    · exact data ▸ private_.room
    · exact same ▸ inv.data t' old before
  · intro t₁ t₂ tr₁ tr₂ found₁ found₂ same
    rcases tran t₁ tr₁ found₁ with ⟨rfl, data₁⟩ | ⟨old₁, before₁, same₁⟩ <;>
      rcases tran t₂ tr₂ found₂ with ⟨rfl, data₂⟩ | ⟨old₂, before₂, same₂⟩
    · rfl
    · exact absurd (same₂.trans (same.symm.trans data₁)) (private_.apart _ _ before₂)
    · exact absurd (same₁.trans (same.trans data₂)) (private_.apart _ _ before₁)
    · exact inv.apart _ _ _ _ before₁ before₂ (by rw [same₁, same₂, same])
  · intro b' holds
    refine ⟨other ?_ (inv.held b' holds).1, (keep.held b' holds).2⟩
    rintro rfl
    exact unheld holds
  · intro c y b' live reads
    obtain ⟨x, live', same⟩ := exists_of_map_eq (client c) live
    refine ⟨other ?_ (inv.reading c x b' live' (reads_of_intake same reads)).1,
      (keep.reading c y b' live reads).2⟩
    rintro rfl
    exact unread c y live reads.1
  · exact keep.space
  · exact keep.old

theorem unread_next (inv : Buffers φ σ) {c : ClientId} {x : Client} (live : σ.client c = some x) :
    x.input ≠ some σ.next :=
  fun into => absurd (inv.old c x _ live into) (Nat.lt_irrefl _)

theorem unheld_next (inv : Buffers φ σ)
    (fresh : ∀ b contents, σ.buf b = some contents → b < σ.next) : φ.held ≠ some σ.next := by
  intro holds
  obtain ⟨contents, room⟩ := (inv.held _ holds).1.room
  exact absurd (fresh _ contents room) (Nat.lt_irrefl _)

theorem submit (inv : Buffers φ σ)
    (fresh : ∀ b contents, σ.buf b = some contents → b < σ.next) {tr : Transaction}
    (data : tr.data = σ.next) (len : Nat) : Buffers φ (σ.submit tr len) := by
  refine (inv.alloc fresh (List.replicate len 0)).own (t := σ.next + 1) (inv.private_alloc fresh _)
    (inv.unheld_next fresh) (fun c x live => inv.unread_next live) ?_
    (fun _ => change_map fun _ => rfl) rfl (Nat.le_succ _)
  intro t' tr' found
  rcases put_eq_some_iff.mp found with ⟨rfl, made⟩ | ⟨_, before⟩
  · exact .inl ⟨rfl, Option.some.inj made ▸ data⟩
  · exact .inr ⟨tr', before, rfl⟩

theorem setReturn (inv : Buffers φ σ)
    (fresh : ∀ b contents, σ.buf b = some contents → b < σ.next) {t : TranId} {tr : Transaction}
    (found : σ.tran t = some tr) (rval : BitVec 32) (rcode : BitVec 64) (data : Bytes) :
    Buffers φ (σ.setReturn t tr.data rval rcode data) := by
  have freed := inv.dropData found
  have fresh' : ∀ b contents, ({ σ with tran := put σ.tran t none }.freeBuf tr.data).buf b =
      some contents → b < σ.next :=
    fun b contents room => fresh b contents (put_none_eq_some_iff.mp room).2
  refine (freed.alloc fresh' data).own (t := t) (freed.private_alloc fresh' _)
    (freed.unheld_next fresh') (fun c x live => freed.unread_next live) ?_ (fun _ => rfl) rfl
    (Nat.le_refl _)
  intro t' tr' found'
  obtain ⟨tr₁, found₁, rfl⟩ := change_eq_some_iff.mp found'
  by_cases same : t' = t
  · exact .inl ⟨same, by simp [same]; rfl⟩
  · obtain ⟨tr₂, found₂, rfl⟩ := change_eq_some_iff.mp found₁
    exact .inr ⟨tr₂, put_eq_some_iff.mpr (.inr ⟨same, found₂⟩), by simp [same]⟩

/-- A client stops reading. -/
theorem rest (inv : Buffers φ σ) (c : ClientId) :
    Buffers φ (σ.mapClient c fun x => { x with handler := none, input := none, used := 0 }) := by
  refine inv.mono (fun _ tr found => ⟨tr, found, rfl⟩) ?_ rfl (Nat.le_refl _) (fun _ => id)
  intro k y b live into
  obtain ⟨x, live', rfl⟩ := change_eq_some_iff.mp live
  split at into
  · cases into
  · exact ⟨x, live', by rw [if_neg ‹_›]⟩

theorem letGo (inv : Buffers φ σ) {b : BufId} (held : φ.held = some b) :
    Buffers { φ with held := none } (σ.freeBuf b) := by
  obtain ⟨own, unread⟩ := inv.held b held
  have dropped : Buffers { φ with held := none } σ := inv.phase (by simp)
  exact dropped.free own.apart (by simp) fun c x live reads => unread c x live reads.1

theorem fill (inv : Buffers φ σ) {c : ClientId} {x : Client} {b : BufId} {contents piece : Bytes}
    (live : σ.client c = some x) (into : x.input = some b) (room : σ.buf b = some contents)
    (short : x.used + piece.length < contents.length) :
    Buffers φ (σ.fill c b (overwrite contents x.used piece) piece) := by
  have length := length_overwrite (Nat.le_of_lt short)
  have stored := inv.store room length
  have client : ∀ {k y}, (σ.fill c b (overwrite contents x.used piece) piece).client k = some y →
      ∃ z, σ.client k = some z ∧ z.handler = y.handler ∧ z.input = y.input ∧
        (k = c ∧ y.used = x.used + piece.length ∨ y.used = z.used) := by
    intro k y live'
    obtain ⟨z, before, rfl⟩ := change_eq_some_iff.mp live'
    refine ⟨z, before, ?_⟩
    split
    · rename_i same
      subst same
      obtain rfl := Option.some.inj (live.symm.trans before)
      exact ⟨rfl, rfl, .inl ⟨rfl, rfl⟩⟩
    · exact ⟨rfl, rfl, .inr rfl⟩
  constructor
  · exact stored.data
  · exact stored.apart
  · intro b' holds
    obtain ⟨⟨room, apart⟩, unread⟩ := stored.held b' holds
    refine ⟨⟨room, apart⟩, ?_⟩
    intro k y live'
    obtain ⟨z, before, _, input, _⟩ := client live'
    exact input ▸ unread k z before
  · intro k y b' live' reads
    obtain ⟨z, before, handler, input, _⟩ := client live'
    obtain ⟨⟨room, apart⟩, unique⟩ := stored.reading k z b' before
      (by rw [Client.Reads, handler, input]; exact reads)
    refine ⟨⟨room, apart⟩, ?_⟩
    intro k' y' other into'
    obtain ⟨z', before', _, input', _⟩ := client other
    exact unique k' z' before' (input'.trans into')
  · intro k y b' contents' live' into' room'
    obtain ⟨z, before, _, input, ⟨rfl, used⟩ | used⟩ := client live'
    · obtain rfl := Option.some.inj (live.symm.trans before)
      obtain rfl := Option.some.inj (into.symm.trans (input.trans into'))
      obtain ⟨_, made⟩ := (put_eq_some_iff.mp room').resolve_right (by simp)
      rw [used, ← Option.some.inj made, length]
      exact short
    · rw [used]
      exact stored.space k z b' contents' before (input.trans into') room'
  · intro k y b' live' into'
    obtain ⟨z, before, _, input, _⟩ := client live'
    exact stored.old k z b' before (input.trans into')

theorem begin (inv : Buffers {} σ) {c : ClientId} {x : Client} {handler : Handler} {b : BufId}
    {contents filled : Bytes} (live : σ.client c = some x) (into : x.input = some b)
    (reading : x.handler = some handler) (room : σ.buf b = some contents)
    (length : filled.length = contents.length) :
    Buffers (.called c x handler b) (σ.begin c handler b filled) := by
  have resting : Buffers {} (σ.begin c handler b filled) :=
    ((inv.store room length).rest c).congr (fun _ => rfl) (fun _ => rfl) rfl (Nat.le_refl _)
      (fun _ => id)
  have room' : ∃ contents, (σ.begin c handler b filled).buf b = some contents :=
    ⟨filled, put_eq_some_iff.mpr (.inl ⟨rfl, rfl⟩)⟩
  refine ⟨resting.data, resting.apart, ?_, resting.reading, resting.space, resting.old⟩
  intro b' holds
  cases owns : handler.ownsData with
  | true => simp [Phase.called, owns] at holds
  | false =>
      simp only [Phase.called, owns] at holds
      obtain rfl := Option.some.inj holds
      obtain ⟨own, unique⟩ := inv.reading c x b live ⟨into, handler, reading, owns⟩
      refine ⟨⟨room', own.apart⟩, ?_⟩
      intro k y live'
      obtain ⟨z, before, rfl⟩ := change_eq_some_iff.mp live'
      split
      · simp
      · exact fun same => ‹k ≠ c› (unique k z before same)

theorem effect {σ₀ : State} {e : Event} (inv : Buffers φ σ) (fresh : Fresh σ)
    (eff : Effect σ₀ e ⟨φ, σ⟩ ⟨φ', τ⟩) : Buffers φ' τ := by
  have given := fresh.buf
  cases eff with
  | connect =>
      refine nextCommand (σ := σ.addClient) ?_
        (fun b contents room => (given b contents room).trans (Nat.lt_succ_self _)) _
      refine inv.mono (fun _ tr found => ⟨tr, found, rfl⟩) ?_ rfl (Nat.le_succ _) (fun _ => id)
      intro c y b live into
      rcases put_eq_some_iff.mp live with ⟨_, made⟩ | ⟨_, live⟩
      · simp [← Option.some.inj made] at into
      · exact ⟨y, live, rfl⟩
  | fill live into reading room short =>
      exact inv.fill live into room short
  | begin _ live into reading room length => exact inv.begin live into reading room length
  | call | write | park | dropService | dropAdvert | enqueue =>
      exact inv.congr (fun _ => rfl) (fun _ => rfl) rfl (Nat.le_refl _) (fun _ => id)
  | found => exact inv.congr (fun _ => rfl) (fun _ => rfl) rfl (Nat.le_succ _) (fun _ => id)
  | rest | spare | orphan => exact inv.phase fun _ => id
  | close _ quiet => exact inv.phase (by simp)
  | done => exact inv.phase (by simp)
  | release held => exact inv.letGo held
  | @resize _ _ b _ data held =>
      have freed := inv.letGo held
      have given' := (fresh.free b).buf
      exact (freed.alloc given' _).hold (freed.private_alloc given' _)
        fun c x live => freed.unread_next live
  | armHeader _ held _ _ room nonempty =>
      obtain ⟨own, unread⟩ := inv.held _ held
      refine (inv.phase (by simp)).arm room nonempty (given _ _ room) ?_ (by simp) ?_
      · exact fun _ => ⟨own, fun k y live _ => unread k y live⟩
      · exact fun k y live _ reads => unread k y live reads.1
  | next => exact inv.nextCommand given _
  | submit _ _ _ _ _ _ data => exact (inv.submit given data _).phase fun _ => id
  | armUpload _ _ _ _ found _ room nonempty =>
      exact (inv.armData given found room nonempty rfl).phase fun _ => id
  | armReturn _ _ _ _ found room nonempty =>
      exact (inv.armData given found room nonempty rfl).phase fun _ => id
  | block | requeue | detach =>
      exact inv.congr (fun _ => rfl) (fun _ => change_map fun _ => rfl) rfl (Nat.le_refl _)
        (fun _ => id)
  | offer =>
      exact inv.congr (fun _ => rfl) (fun _ => change_map fun _ => rfl) rfl (Nat.le_succ _)
        (fun _ => id)
  | assignUp | assignWork =>
      refine assign (σ := σ.dismiss _) ?_ given _ _ _ _
      exact inv.congr (fun _ => rfl) (fun _ => rfl) rfl (Nat.le_refl _) (fun _ => id)
  | replyQueued _ _ _ _ _ _ deletable => exact inv.reply given deletable.live _
  | replyWaiting _ _ _ _ deletable =>
      exact (inv.reply given deletable.live _).phase fun _ => id
  | setReturn _ _ _ found => exact inv.setReturn given found _ _ _
  | finish | fail =>
      exact inv.congr (fun _ => change_map fun _ => rfl) (fun _ => change_map fun _ => rfl) rfl
        (Nat.le_refl _) (fun _ => id)
  | sweep _ _ _ _ deletable => exact inv.delTran deletable.live
  | purge _ _ _ _ _ _ _ deletable => exact inv.delTran deletable.live
  | dropClient =>
      refine inv.mono (fun _ tr found => ⟨tr, found, rfl⟩) ?_ rfl (Nat.le_refl _) (fun _ => id)
      intro c y b live _
      exact ⟨y, (put_none_eq_some_iff.mp live).2, rfl⟩

end Buffers

end Switchboard
end Xatmi
