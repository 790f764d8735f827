import Xatmi.Switchboard.Registration

/-!
# Runs that only advertise

Runs in which clients advertise, unadvertise and disconnect, in any order. Nothing waits for
anything in such a run, so every event of it is served to the end, and the registry is the map it
stands for.
-/

namespace Xatmi
namespace Switchboard

open Program

variable {σ τ : State} {e : Event}

/-- Every command that the event completes is a `TPTADVT`, a `TPTUADV`, or unknown. -/
def RegistryTraffic (σ : State) (e : Event) : Prop :=
  ∀ c kind, Commands σ e c kind → kind = TPTADVT ∨ kind = TPTUADV ∨ commands[kind.toNat]? = none

instance (σ : State) (e : Event) : Decidable (RegistryTraffic σ e) :=
  decidable_of_iff ((received σ e).all fun found => decide (found.2.1 = .command →
      found.2.2.getD 0 0 = TPTADVT ∨ found.2.2.getD 0 0 = TPTUADV ∨
        commands[(found.2.2.getD 0 0).toNat]? = none)) (by
    simp only [Option.all_eq_true, decide_eq_true_eq, RegistryTraffic, Commands, Received]
    constructor
    · rintro known c _ ⟨filled, found, rfl⟩
      exact known _ found rfl
    · rintro known ⟨c, handler, filled⟩ found rfl
      exact known c _ ⟨filled, found, rfl⟩)

/-! ## Quiet memories -/

/-- The client waits for nothing and is sending a command or an advertisement. -/
def Client.Registering (x : Client) : Prop :=
  x.wait4 = none ∧ ∀ handler, x.handler = some handler →
    handler = .command ∨ handler = .svradvertise ∨ handler = .svrunadvertise

/-- There are no transactions and nothing is on a wait queue. -/
structure Quiet (σ : State) : Prop where
  noTran : ∀ t, σ.tran t = none
  queues : ∀ s svc, σ.service s = some svc → σ.links.Alone (.head s)
  adverts : ∀ a v, σ.advert a = some v → σ.links.Alone (.adv a)
  clients : ∀ c x, σ.client c = some x → x.Registering

namespace Quiet

theorem start : Quiet .start := by
  constructor <;> simp [State.start]

/-- Effects that create no object with links. -/
theorem mono (quiet : Quiet σ) (tran : τ.tran = σ.tran) (links : τ.links = σ.links)
    (service : ∀ s svc, τ.service s = some svc → ∃ old, σ.service s = some old)
    (advert : ∀ a v, τ.advert a = some v → ∃ old, σ.advert a = some old)
    (client : ∀ c x, τ.client c = some x → x.Registering) : Quiet τ := by
  refine ⟨tran ▸ quiet.noTran, ?_, ?_, client⟩
  · intro s svc current
    obtain ⟨old, current'⟩ := service s svc current
    rw [links]
    exact quiet.queues s old current'
  · intro a v current
    obtain ⟨old, current'⟩ := advert a v current
    rw [links]
    exact quiet.adverts a old current'

theorem mapClient (quiet : Quiet σ) (c : ClientId) {update : Client → Client}
    (keeps : ∀ x, x.Registering → (update x).Registering) : Quiet (σ.mapClient c update) := by
  refine quiet.mono rfl rfl (fun _ svc current => ⟨svc, current⟩) (fun _ v current => ⟨v, current⟩)
    ?_
  intro k y live
  obtain ⟨x, live', rfl⟩ := change_eq_some_iff.mp live
  split
  · exact keeps x (quiet.clients k x live')
  · exact quiet.clients k x live'

/-- Buffers, output and observations. -/
theorem congr (quiet : Quiet σ) (tran : τ.tran = σ.tran) (links : τ.links = σ.links)
    (service : τ.service = σ.service) (advert : τ.advert = σ.advert)
    (client : τ.client = σ.client) :
    Quiet τ := by
  refine quiet.mono tran links ?_ ?_ ?_
  · exact fun s svc current => ⟨svc, service ▸ current⟩
  · exact fun a v current => ⟨v, advert ▸ current⟩
  · exact fun c x live => quiet.clients c x (client ▸ live)

theorem arm (quiet : Quiet σ) (c : ClientId) {handler : Handler} (b : BufId)
    (known : handler = .command ∨ handler = .svradvertise ∨ handler = .svrunadvertise) :
    Quiet (σ.arm c handler b) := by
  refine quiet.mapClient c fun x registering => ⟨registering.1, fun other armed => ?_⟩
  obtain rfl := Option.some.inj armed
  exact known

theorem nextCommand (quiet : Quiet σ) (c : ClientId) : Quiet (σ.nextCommand c) := by
  have roomy : Quiet (σ.allocBuf [0]) := quiet.congr rfl rfl rfl rfl rfl
  exact roomy.arm c _ (.inl rfl)

/-- The end of `svradvertise` and `svrunadvertise`. -/
theorem answer (quiet : Quiet σ) (c : ClientId) (bytes : Bytes) :
    Quiet ((σ.write c bytes).nextCommand c) := by
  have written : Quiet (σ.write c bytes) := quiet.congr rfl rfl rfl rfl rfl
  exact written.nextCommand c

theorem begin (quiet : Quiet σ) (c : ClientId) (handler : Handler) (b : BufId) (filled : Bytes) :
    Quiet (σ.begin c handler b filled) := by
  have stored : Quiet { σ with buf := put σ.buf b (some filled) } := quiet.congr rfl rfl rfl rfl rfl
  refine congr (mapClient stored c fun x registering => ?_) rfl rfl rfl rfl rfl
  exact ⟨registering.1, by simp⟩

theorem addClient (quiet : Quiet σ) : Quiet σ.addClient := by
  refine quiet.mono rfl rfl (fun _ svc current => ⟨svc, current⟩) (fun _ v current => ⟨v, current⟩)
    ?_
  intro c x live
  rcases put_eq_some_iff.mp live with ⟨_, made⟩ | ⟨_, live⟩
  · rw [← Option.some.inj made]
    exact ⟨rfl, by simp⟩
  · exact quiet.clients c x live

theorem addService (quiet : Quiet σ) (svcname : Bytes) :
    Quiet (σ.addService svcname) := by
  refine ⟨quiet.noTran, ?_, ?_, quiet.clients⟩
  · intro s svc current
    rcases put_eq_some_iff.mp current with ⟨rfl, _⟩ | ⟨old, current⟩
    · exact WaitQueues.init_alone _ _
    · exact (Intrusive.Links.init_alone_iff (by simpa using old)).mpr (quiet.queues s svc current)
  · intro a v current
    exact (Intrusive.Links.init_alone_iff (by simp)).mpr (quiet.adverts a v current)

theorem offer (quiet : Quiet σ) (v : Advert) : Quiet (σ.offer v) := by
  have added : Quiet (σ.addAdvert v) := by
    refine ⟨quiet.noTran, ?_, ?_, quiet.clients⟩
    · intro s svc current
      exact (Intrusive.Links.init_alone_iff (by simp)).mpr (quiet.queues s svc current)
    · intro a w current
      rcases put_eq_some_iff.mp current with ⟨rfl, _⟩ | ⟨old, current⟩
      · exact WaitQueues.init_alone _ _
      · exact (Intrusive.Links.init_alone_iff (by simpa using old)).mpr (quiet.adverts a w current)
  exact added.mapClient _ fun _ => id

theorem detach (quiet : Quiet σ) {a : AdvertId} {v : Advert} (advert : σ.advert a = some v)
    (c : ClientId) : Quiet (σ.detach a c) ∧ (σ.detach a c).links = σ.links := by
  have links : (σ.unlink (.adv a)).links = σ.links :=
    Intrusive.Links.delete_of_alone (quiet.adverts a v advert)
  have unlinked : Quiet (σ.unlink (.adv a)) :=
    quiet.mono rfl links (fun _ svc current => ⟨svc, current⟩)
      (fun _ v current => ⟨v, current⟩) quiet.clients
  exact ⟨unlinked.mapClient c fun _ => id, links⟩

theorem dropAdvert (quiet : Quiet σ) (a : AdvertId) : Quiet (σ.dropAdvert a) := by
  refine quiet.mono rfl rfl (fun _ svc current => ⟨svc, current⟩) ?_ quiet.clients
  intro b v current
  rcases put_eq_some_iff.mp current with ⟨_, impossible⟩ | ⟨_, current⟩
  · cases impossible
  · exact ⟨v, current⟩

theorem dropService (quiet : Quiet σ) (s : ServiceId) : Quiet (σ.dropService s) := by
  refine quiet.mono rfl rfl ?_ (fun _ v current => ⟨v, current⟩) quiet.clients
  intro s' svc current
  rcases put_eq_some_iff.mp current with ⟨_, impossible⟩ | ⟨_, current⟩
  · cases impossible
  · exact ⟨svc, current⟩

theorem dropClient (quiet : Quiet σ) (c : ClientId) : Quiet (σ.dropClient c) := by
  refine quiet.mono rfl rfl (fun _ svc current => ⟨svc, current⟩) (fun _ v current => ⟨v, current⟩)
    ?_
  intro k x live
  rcases put_eq_some_iff.mp live with ⟨_, impossible⟩ | ⟨_, live⟩
  · cases impossible
  · exact quiet.clients k x live

/-! ## What succeeds in a quiet memory -/

/-- `del_advertisement`. -/
theorem delAdvertisement (quiet : Quiet σ) {φ : Phase} (inv : Inv ⟨φ, σ⟩) {c : ClientId}
    {x : Client} {a : AdvertId} (live : σ.client c = some x) (mine : a ∈ x.adverts) {depth : Nat}
    (deep : 0 < depth) :
    ∃ τ, delAdvertisement depth a σ = .ok (⟨⟩, τ) ∧ Quiet τ ∧
      τ.client c = some { x with adverts := x.adverts.erase a } := by
  obtain ⟨depth, rfl⟩ := Nat.exists_eq_succ_of_ne_zero (Nat.pos_iff_ne_zero.mp deep)
  obtain ⟨_, v, advert, rfl, svc, service⟩ := inv.registry.tree c x a live mine
  have alone := quiet.adverts a v advert
  have current : σ.nodeLive (.adv a) = true := Option.isSome_of_eq_some advert
  have unlinkable : σ.Unlinkable (.adv a) :=
    ⟨current, by rw [alone.1]; exact current, by rw [alone.2]; exact current⟩
  obtain ⟨detached, links⟩ := quiet.detach advert v.client
  have empty : (σ.detach a v.client).EmptyQueue v.svc := by
    rw [State.EmptyQueue, links]
    exact (quiet.queues v.svc svc service).1
  have left : (σ.detach a v.client).client v.client =
      some { x with adverts := x.adverts.erase a } :=
    change_eq_some_iff.mpr ⟨x, live, (if_pos rfl).symm⟩
  obtain ⟨τ, deleted, rfl | rfl⟩ :=
    @delAdvertisement_of_empty σ depth a v svc x advert unlinkable live service empty
  · exact ⟨_, deleted, detached.dropAdvert a, left⟩
  · exact ⟨_, deleted, (detached.dropService v.svc).dropAdvert a, left⟩

/-- The first loop of `del_client`. -/
theorem delAdverts (quiet : Quiet σ) {env : Env} {c : ClientId} {x : Client}
    (inv : Inv ⟨{ closing := some c, settled := true }, σ⟩) (live : σ.client c = some x)
    {bound : Nat} (room : 0 < bound) (enough : x.adverts.length ≤ bound) :
    ∃ τ, delAdverts env c bound σ = .ok (⟨⟩, τ) ∧ Quiet τ := by
  have round : ∀ {s}, (Quiet s ∧ Inv ⟨{ closing := some c, settled := true }, s⟩ ∧
      ∃ y, s.client c = some y) →
      (do let x ← readClient c; pure (decide (x.adverts ≠ [])) : M Bool) s = .ok (true, s) →
      ∃ s', visitRoot env c (Switchboard.delAdvertisement bound) s = .ok (⟨⟩, s') ∧
        (Quiet s' ∧ Inv ⟨{ closing := some c, settled := true }, s'⟩ ∧ ∃ y, s'.client c = some y) ∧
        ((s'.client c).elim 0 fun y => y.adverts.length) <
          (s.client c).elim 0 fun y => y.adverts.length := by
    rintro s ⟨quiet, inv, y, live⟩ tested
    obtain ⟨a, mine, root⟩ := visitRoot_of_test env live tested
    obtain ⟨s', deleted, quiet', live''⟩ := quiet.delAdvertisement inv live mine room
    refine ⟨s', ?_, ⟨quiet', ?_, _, live''⟩, ?_⟩
    · rw [root]
      exact deleted
    · have trace : Trace s ⟨env, .connect⟩ _ _ :=
        delAdvertisement_trace inv rfl rfl live mine rfl (.inl ⟨rfl, rfl⟩) deleted
      exact inv.trace trace
    · simp only [live, live'', Option.elim_some, List.length_erase_of_mem mine]
      have := List.length_pos_of_mem mine
      omega
  have test : ∀ {s}, (Quiet s ∧ Inv ⟨{ closing := some c, settled := true }, s⟩ ∧
      ∃ y, s.client c = some y) →
      ∃ goes, (do let x ← readClient c; pure (decide (x.adverts ≠ [])) : M Bool) s = .ok
        (goes, s) := by
    rintro s ⟨_, _, y, live⟩
    exact ⟨_, client_ok_iff.mpr ⟨y, live, rfl, rfl⟩⟩
  obtain ⟨τ, loop, ⟨kept, _⟩, _⟩ := whileLoop_total _ ⟨quiet, inv, x, live⟩
    (by simpa only [live, Option.elim_some] using enough) test round
  exact ⟨τ, loop, kept⟩

theorem delQueue_of_nil {c : ClientId} {x : Client} {queue : Client → List TranId} {bound : Nat}
    (live : σ.client c = some x) (empty : queue x = []) :
    delQueue c queue bound σ = .ok (⟨⟩, σ) := by
  have stops : (do let x ← readClient c; pure (decide (queue x ≠ [])) : M Bool) σ =
      .ok (false, σ) :=
    client_ok_iff.mpr ⟨x, live, by simp [empty], rfl⟩
  unfold delQueue
  cases bound <;> exact bind_of_ok stops

/-- `del_client`. -/
theorem delClient (quiet : Quiet σ) {φ : Phase} {σ₀ : State} (inv : Inv ⟨φ, σ⟩) {c : ClientId}
    (closes : Closes σ₀ e c) (phase : φ = {} ∨ φ = { run := some c }) {x : Client}
    (live : σ.client c = some x) (same : SameTables σ₀ σ) :
    ∃ τ, delClient e.env c σ = .ok (⟨⟩, τ) ∧ Quiet τ := by
  have waiting : x.wait4 = none := (quiet.clients c x live).1
  have spared : failWork c σ = .ok (⟨⟩, σ) := by
    unfold failWork failWorkWith
    rw [bind_of_ok (readClient_ok_iff.mpr ⟨live, rfl⟩), waiting]
    rfl
  have closed : Inv ⟨{ closing := some c, settled := true }, σ⟩ := by
    have trace : Trace σ₀ e ⟨φ, σ⟩ ⟨{ closing := some c, settled := true }, σ⟩ :=
      .head (.close closes phase live) (failWork_trace same spared)
    exact inv.trace trace
  have old : ∀ a ∈ x.adverts, a < σ.next := by
    intro a mine
    obtain ⟨_, v, advert, _⟩ := inv.registry.tree c x a live mine
    exact (inv.waits.old (.adv a) (Option.isSome_of_eq_some advert)).1
  have many := length_le_of_nodup (inv.registry.tree_nodup c x live) old
  have positive : 0 < σ.next :=
    Nat.zero_lt_of_lt (inv.fresh.clients c ((inv.registry.mem_clients c).mpr ⟨x, live⟩))
  obtain ⟨μ, deleted, quiet'⟩ := quiet.delAdverts closed live positive many
  have withdrawn : ∃ y, μ.client c = some y ∧ y.requests = [] ∧ y.replies = [] := by
    have ⟨trace, y, live', _⟩ := @delAdverts_trace σ₀ e _ _ _ _ _ _ closed deleted
    have own : Ownership μ := (closed.trace trace).own
    have none_ : y.outstanding = [] := by
      refine List.eq_nil_iff_forall_not_mem.mpr fun t member => ?_
      obtain ⟨tr, found, _⟩ := own.mine c y t live' member
      simp [quiet'.noTran t] at found
    exact ⟨y, live', List.append_eq_nil_iff.mp none_⟩
  obtain ⟨y, live', requests, replies⟩ := withdrawn
  refine ⟨μ.dropClient c, ?_, quiet'.dropClient c⟩
  simp only [Switchboard.delClient, delClientBy, failWorkWith_plain, delAdvertsWith_plain,
    delQueueWith_plain, id_eq]
  rw [seq_of_ok spared, bind_of_ok (get_ok_iff.mpr ⟨rfl, rfl⟩), seq_of_ok deleted,
    seq_of_ok (delQueue_of_nil live' requests), seq_of_ok (delQueue_of_nil live' replies)]
  rfl

/-- `new_advertisement`. -/
theorem newAdvertisement (quiet : Quiet σ) {c : ClientId} {x : Client} (live : σ.client c = some x)
    (svcname : Bytes) (func : BitVec 64) :
    ∃ a τ, newAdvertisement c svcname func σ = .ok (a, τ) ∧ Quiet τ ∧ τ.buf = σ.buf ∧
      ∃ y, τ.client c = some y ∧ y.intake = x.intake := by
  obtain ⟨s, μ, made, quiet', buf, client⟩ : ∃ s μ, newService svcname σ = .ok (s, μ) ∧ Quiet μ ∧
      μ.buf = σ.buf ∧ μ.client = σ.client := by
    cases found : σ.fndService svcname with
    | some s => exact ⟨s, σ, newService_ok_iff.mpr (.inl ⟨found, rfl⟩), quiet, rfl, rfl⟩
    | none =>
        exact ⟨_, _, newService_ok_iff.mpr (.inr ⟨found, rfl, rfl⟩), quiet.addService svcname, rfl,
          rfl⟩
  have live' : μ.client c = some x := client ▸ live
  cases found : μ.fndAdvertisement c svcname with
  | some a =>
      exact ⟨a, μ, newAdvertisement_ok_iff.mpr ⟨s, μ, made, .inl ⟨found, rfl⟩⟩, quiet', buf, x,
        live', rfl⟩
  | none =>
      refine ⟨μ.next, _, newAdvertisement_ok_iff.mpr ⟨s, μ, made,
        .inr ⟨found, ⟨x, live'⟩, rfl, rfl⟩⟩, quiet'.offer _, buf,
        { x with adverts := x.adverts ++ [μ.next] }, ?_, rfl⟩
      exact change_eq_some_iff.mpr ⟨x, live', (if_pos rfl).symm⟩

/-- `command`, for a message with a fixed part. -/
theorem command (quiet : Quiet σ) {c : ClientId} {x : Client} {b : BufId} {filled : Bytes}
    (live : σ.client c = some x) (idle : x.Idle) (held : σ.buf b = some filled) {handler : Handler}
    {len : Nat} (kind : commands[(filled.getD 0 0).toNat]? = some (handler, len)) (some_ : 0 < len)
    (known : handler = .svradvertise ∨ handler = .svrunadvertise) :
    ∃ τ, command e.env c b σ = .ok (⟨⟩, τ) ∧ Quiet τ := by
  have moved : tprealloc b len σ =
      .ok (some σ.next, (σ.freeBuf b).allocBuf (resize filled len)) :=
    tprealloc_ok_iff.mpr ⟨filled, held, .inr ⟨Int.natCast_nonneg len, rfl, rfl⟩⟩
  have long : resize filled len ≠ [] := by
    intro empty
    have length := congrArg List.length empty
    simp only [resize, List.length_append, List.length_take, List.length_replicate,
      List.length_nil] at length
    omega
  have quiet' : Quiet ((σ.freeBuf b).allocBuf (resize filled len)) :=
    quiet.congr rfl rfl rfl rfl rfl
  refine ⟨_, ?_, quiet'.arm c σ.next (.inr known)⟩
  unfold Switchboard.command
  rw [bind_of_ok (readBuf_ok_iff.mpr ⟨held, rfl⟩), kind]
  simp only []
  rw [bind_of_ok moved]
  exact svriowait_ok_iff.mpr ⟨x, resize filled len, live, idle, if_pos rfl, .inl ⟨long, rfl⟩⟩

/-- `svradvertise`. -/
theorem svradvertise (quiet : Quiet σ) {φ : Phase} (inv : Inv ⟨φ, σ⟩) {c : ClientId} {x : Client}
    {b : BufId} {filled : Bytes} (live : σ.client c = some x) (idle : x.Idle)
    (held : σ.buf b = some filled) :
    ∃ τ, svradvertise c b σ = .ok (⟨⟩, τ) ∧ Quiet τ := by
  obtain ⟨a, μ, made, quiet', buf, y, live', same⟩ := quiet.newAdvertisement live
    (filled.take XATMI_SERVICE_NAME_LENGTH) (tolong (filled.drop XATMI_SERVICE_NAME_LENGTH))
  obtain ⟨_, v, _, advert, _⟩ := newAdvertisement_spec inv made
  have resting : y.Idle := by
    simp only [Client.intake, Prod.mk.injEq] at same
    simpa only [Client.Idle, same] using idle
  have freed : tpfree b μ = .ok (⟨⟩, μ.freeBuf b) := tpfree_ok_iff.mpr ⟨⟨filled, buf ▸ held⟩, rfl⟩
  have seen : readAdvert a (μ.freeBuf b) = .ok (v, μ.freeBuf b) :=
    readAdvert_ok_iff.mpr ⟨advert, rfl⟩
  have quiet'' : Quiet (μ.freeBuf b) := quiet'.congr rfl rfl rfl rfl rfl
  unfold Switchboard.svradvertise
  rw [bind_of_ok (readBuf_ok_iff.mpr ⟨held, rfl⟩)]
  simp only []
  rw [bind_of_ok made, seq_of_ok freed, bind_of_ok seen]
  split
  · exact ⟨_, answer_ok_iff.mpr ⟨⟨y, live', resting⟩, rfl⟩, quiet''.answer c _⟩
  · exact ⟨_, answer_ok_iff.mpr ⟨⟨y, live', resting⟩, rfl⟩, quiet''.answer c _⟩

/-- `svrunadvertise`. -/
theorem svrunadvertise (quiet : Quiet σ) (e : Event) {φ : Phase} (inv : Inv ⟨φ, σ⟩) {c : ClientId}
    {x : Client} {b : BufId} {filled : Bytes} (holds : φ.held = some b)
    (live : σ.client c = some x) (idle : x.Idle) (held : σ.buf b = some filled) :
    ∃ τ, svrunadvertise c b σ = .ok (⟨⟩, τ) ∧ Quiet τ := by
  have freed : tpfree b σ = .ok (⟨⟩, σ.freeBuf b) := tpfree_ok_iff.mpr ⟨⟨filled, held⟩, rfl⟩
  have quiet' : Quiet (σ.freeBuf b) := quiet.congr rfl rfl rfl rfl rfl
  simp only [Switchboard.svrunadvertise, svrunadvertiseBy, delAdvertisementWith_plain, id_eq]
  rw [bind_of_ok (readBuf_ok_iff.mpr ⟨held, rfl⟩), bind_of_ok (get_ok_iff.mpr ⟨rfl, rfl⟩),
    seq_of_ok freed]
  cases found : σ.fndAdvertisement c (filled.take XATMI_SERVICE_NAME_LENGTH) with
  | none => exact ⟨_, answer_ok_iff.mpr ⟨⟨x, live, idle⟩, rfl⟩, quiet'.answer c _⟩
  | some a =>
      obtain ⟨x', _, live', mine, _⟩ := inv.registry.fndAdvertisement_eq_some_iff.mp found
      obtain rfl := Option.some.inj (live.symm.trans live')
      have positive : 0 < σ.next :=
        Nat.zero_lt_of_lt (inv.fresh.clients c ((inv.registry.mem_clients c).mpr ⟨x, live⟩))
      have released : Effect σ e ⟨φ, σ⟩ ⟨{ φ with held := none }, σ.freeBuf b⟩ :=
        .release holds held
      obtain ⟨τ, deleted, quiet'', left⟩ :=
        quiet'.delAdvertisement (inv.effect released) live mine positive
      simp only []
      rw [seq_of_ok deleted]
      exact ⟨_, answer_ok_iff.mpr ⟨⟨_, left, idle⟩, rfl⟩, quiet''.answer c _⟩

theorem step_of_closes (quiet : Quiet σ) (inv : Inv ⟨{}, σ⟩) {c : ClientId} {x : Client}
    (live : σ.client c = some x)
    (room : ∀ b, x.input = some b → ∃ contents, σ.buf b = some contents) (closes : Closes σ e c) :
    ∃ τ, step σ e = .ok τ ∧ Quiet τ := by
  obtain ⟨φ, μ, left, phase, trace, same, called⟩ := step_closes closes (by
    intro y b live' into
    obtain rfl := Option.some.inj (live.symm.trans live')
    exact room b into)
  have quiet' : Quiet μ := by
    cases left with
    | ended => exact quiet
    | unknown b filled => exact (quiet.begin c .command b filled).congr rfl rfl rfl rfl rfl
  obtain ⟨y, live', _⟩ := exists_of_map_eq (same.client c).symm live
  obtain ⟨τ, deleted, final⟩ := quiet'.delClient (inv.trace trace) closes phase live' same
  refine ⟨τ, ?_, final⟩
  rw [called, deleted]
  rfl

/-- A complete buffer. -/
theorem step_of_received (quiet : Quiet σ) (inv : Inv ⟨{}, σ⟩) (traffic : RegistryTraffic σ e)
    {c : ClientId} {handler : Handler} {filled : Bytes} (open_ : ¬Closes σ e c)
    (received : Received σ e c handler filled) : ∃ τ, step σ e = .ok τ ∧ Quiet τ := by
  obtain ⟨x, b, _, live, into, reading, _, _, _, called⟩ := Switchboard.step_of_received received
  have quiet' := quiet.begin c handler b filled
  have inv' := inv_begin inv received live into
  have live' : (σ.begin c handler b filled).client c =
      some { x with handler := none, input := none, used := 0 } :=
    change_eq_some_iff.mpr ⟨x, live, (if_pos rfl).symm⟩
  have held : (σ.begin c handler b filled).buf b = some filled := if_pos rfl
  have served : ∃ τ, runHandler e.env handler c b (σ.begin c handler b filled) = .ok (⟨⟩, τ) ∧
      Quiet τ := by
    rcases (quiet.clients c x live).2 handler reading with rfl | rfl | rfl
    · rcases traffic c _ ⟨filled, received, rfl⟩ with kind | kind | unknown
      · exact quiet'.command live' ⟨rfl, rfl, rfl⟩ held (by rw [kind]; rfl) (by decide) (.inl rfl)
      · exact quiet'.command live' ⟨rfl, rfl, rfl⟩ held (by rw [kind]; rfl) (by decide) (.inr rfl)
      · exact absurd (.inr ⟨filled, received, unknown⟩) open_
    · exact quiet'.svradvertise inv' live' ⟨rfl, rfl, rfl⟩ held
    · exact quiet'.svrunadvertise e inv' rfl live' ⟨rfl, rfl, rfl⟩ held
  obtain ⟨τ, done, final⟩ := served
  refine ⟨τ, ?_, final⟩
  rw [called, done]
  rfl

/-- Every event of registry traffic is served in a quiet memory, which stays quiet. -/
theorem step (quiet : Quiet σ) (inv : Inv ⟨{}, σ⟩) (traffic : RegistryTraffic σ e) :
    ∃ τ, step σ e = .ok τ ∧ Quiet τ := by
  cases source : e.happening with
  | connect => exact ⟨_, step_connect source, quiet.addClient.nextCommand _⟩
  | ready c input =>
      by_cases connected : c ∈ σ.clients
      · obtain ⟨x, live⟩ := (inv.registry.mem_clients c).mp connected
        have room : ∀ b, x.input = some b → ∃ contents, σ.buf b = some contents := by
          intro b into
          cases reading : x.handler with
          | none => simp [((inv.readers c x live).idle reading).2.1] at into
          | some handler =>
              refine (inv.buffers.reading c x b live ⟨into, handler, reading, ?_⟩).1.room
              rcases (quiet.clients c x live).2 handler reading with rfl | rfl | rfl <;> rfl
        by_cases closes : Closes σ e c
        · exact quiet.step_of_closes inv live room closes
        · rcases ready_cases source connected live room with closed | ⟨handler, filled, received⟩ |
              ⟨b, contents, piece, filled⟩
          · exact absurd closed closes
          · exact quiet.step_of_received inv traffic closes received
          · have stored : Quiet { σ with buf := put σ.buf b (some contents) } :=
              quiet.congr rfl rfl rfl rfl rfl
            exact ⟨_, filled, stored.mapClient c fun _ => id⟩
      · exact ⟨σ, step_absent source connected, quiet⟩

end Quiet

theorem quiet_of_reachable (reach : Reachable RegistryTraffic σ) : Quiet σ := by
  induction reach with
  | start => exact .start
  | next reach traffic done quiet =>
      obtain ⟨τ, done', quiet'⟩ := quiet.step (inv_of_reachable reach) traffic
      obtain rfl := Except.ok.inj (done.symm.trans done')
      exact quiet'

/-! ## The registry -/

/-- The trees of advertisements and services are a finite map from clients and names to pointers:
`svradvertise`, `svrunadvertise` and the end of a connection act on the map and answer from it, and
nothing else changes it. Runs made of these never end in a fault, and services are exactly the names
that somebody advertises. -/
theorem registry_refines_map (reach : Reachable anyStep σ) (e : Event) :
    State.start.offers = (fun _ _ => none) ∧
    (Reachable RegistryTraffic σ → RegistryTraffic σ e → ∃ τ, step σ e = .ok τ) ∧
    (∀ name, (σ.services.countP fun s => (σ.service s).any fun svc => cname svc.svcname = name) =
      if ∃ c ∈ σ.clients, (σ.offers c name).isSome then 1 else 0) ∧
    (∀ name, (σ.fndService name).isSome ↔ ∃ c ∈ σ.clients, (σ.offers c (cname name)).isSome) ∧
    ∀ τ, step σ e = .ok τ →
      (∀ c filled, Received σ e c .svradvertise filled →
        let name := cname (filled.take XATMI_SERVICE_NAME_LENGTH)
        let func := tolong (filled.drop XATMI_SERVICE_NAME_LENGTH)
        τ.offers = σ.offers.advertise c name func ∧
          τ.sent = (σ.write c (shortBytes
            (if τ.offers c name = some func then 0 else BitVec.ofNat 16 TPEMATCH))).sent) ∧
      (∀ c filled, Received σ e c .svrunadvertise filled →
        let name := cname (filled.take XATMI_SERVICE_NAME_LENGTH)
        τ.offers = σ.offers.withdraw c name ∧
          τ.sent = (σ.write c (shortBytes
            (if (σ.offers c name).isSome then 0 else BitVec.ofNat 16 TPENOENT))).sent) ∧
      (∀ c, Closes σ e c → τ.offers = σ.offers.leave c) ∧
      ((∀ c filled, ¬Received σ e c .svradvertise filled) →
        (∀ c filled, ¬Received σ e c .svrunadvertise filled) → (∀ c, ¬Closes σ e c) →
        τ.offers = σ.offers) := by
  have inv := inv_of_reachable reach
  refine ⟨rfl, ?_, countP_services reach, fndService_isSome_iff reach, ?_⟩
  · intro reach traffic
    obtain ⟨τ, done, _⟩ := (quiet_of_reachable reach).step inv traffic
    exact ⟨τ, done⟩
  · intro τ done
    exact ⟨fun c filled received => svradvertise_refines inv received done,
      fun c filled received => svrunadvertise_refines inv received done,
      fun c closes => delClient_refines inv closes done,
      fun noAdvertise noUnadvertise noClose =>
        others_refine inv noAdvertise noUnadvertise noClose done⟩

/-- A client advertises `A`, and its `TPTUADV` for `A` is complete. -/
theorem registry_refines_map_unadvertise : ∃ σ τ e, Reachable anyStep σ ∧
    Reachable RegistryTraffic σ ∧ RegistryTraffic σ e ∧ step σ e = .ok τ ∧
    Received σ e 0 .svrunadvertise (Scenario.svcname 65) ∧ σ.offers 0 [65] = some 0 ∧
    τ.offers = σ.offers.withdraw 0 [65] ∧ (σ.fndService [65]).isSome := by
  obtain ⟨σ, reach, seen⟩ := Scenario.reachable_of_permitted
    ([Scenario.connect] ++ Scenario.advertise 0 65 ++ [Scenario.receive 0 [TPTUADV] 0])
    (fun σ => (received σ (Scenario.receive 0 (Scenario.svcname 65) 0), σ.offers 0 [65],
      decide (RegistryTraffic σ (Scenario.receive 0 (Scenario.svcname 65) 0))))
    (some (0, .svrunadvertise, Scenario.svcname 65), some 0, true)
    (show permitted RegistryTraffic _ _ = true by decide +kernel) (by decide +kernel)
  simp only [Prod.mk.injEq, decide_eq_true_eq] at seen
  obtain ⟨received, offered, traffic⟩ := seen
  have reach' : Reachable anyStep σ := reach.mono fun _ _ _ => trivial
  obtain ⟨_, served, _, services, operations⟩ :=
    registry_refines_map reach' (Scenario.receive 0 (Scenario.svcname 65) 0)
  obtain ⟨τ, done⟩ := served reach traffic
  have named : cname [65] = [65] := by decide
  obtain ⟨_, _, _, _, _, _, connected, _⟩ := received_elim received
  exact ⟨σ, τ, _, reach', reach, traffic, done, received, offered,
    ((operations τ done).2.1 0 _ received).1,
    (services [65]).mpr ⟨0, connected, by rw [named, offered]; rfl⟩⟩

end Switchboard
end Xatmi
