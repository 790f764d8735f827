import Mathlib.Data.List.Perm.Subperm
import Xatmi.Switchboard.Handling

/-!
# Progress

When the code gets through: the invariant makes sure that what a handler follows is allocated,
except for executors, services and workers' buffers.
-/

namespace Xatmi
namespace Switchboard

open Program

variable {φ : Phase} {σ : State} {e : Event}

/-! ## Objects -/

theorem WaitQueues.unlinkable_tran (inv : WaitQueues σ) {t : TranId} {tr : Transaction}
    (found : σ.tran t = some tr) : σ.Unlinkable (.tran t) := by
  have live : σ.nodeLive (.tran t) = true := Option.isSome_of_eq_some found
  rcases inv.tran t tr found with alone | ⟨waiting, queue, member⟩
  · exact ⟨live, by rw [alone.1]; exact live, by rw [alone.2]; exact live⟩
  · have lives := WaitQueues.members_live queue (inv.queue_members queue)
    have neighbours := queue.2.neighbours_mem (n := .tran t) (by simpa using member)
    exact ⟨live, lives _ neighbours.1, lives _ neighbours.2⟩

/-- A transaction with a current executor, or none, can be deleted. -/
theorem Inv.deletable (inv : Inv ⟨φ, σ⟩) {t : TranId} {tr : Transaction}
    (found : σ.tran t = some tr)
    (executor : ∀ a, tr.executor = some a → ∃ v, σ.advert a = some v ∧
      ∃ x, σ.client v.client = some x) : σ.Deletable t tr where
  live := found
  owner := (inv.own.owned t tr found).imp fun _ => And.left
  unlinkable := inv.waits.unlinkable_tran found
  executor := executor
  data := inv.buffers.data t tr found

/-! ## Deletion -/

theorem delService_of_empty {delAdvert : AdvertId → M PUnit} {s : ServiceId} {svc : Service}
    (current : σ.service s = some svc) (empty : σ.EmptyQueue s) :
    delService delAdvert s σ = .ok (⟨⟩, σ.dropService s) := by
  have done : ∀ {body : M PUnit}, whileLoop .diverges (do let empty ← qisempty s; pure !empty) body
      σ.next σ = .ok (⟨⟩, σ) := by
    intro body
    have stops : (do let empty ← qisempty s; pure !empty : M Bool) σ = .ok (false, σ) :=
      not_qisempty_ok_iff.mpr ⟨⟨svc, current⟩, by simp [empty], rfl⟩
    cases σ.next <;> exact bind_of_ok stops
  refine delService_ok_iff.mpr ⟨svc, ⟨⟩, σ, current, rfl, ?_⟩
  cases svc.waitContainsTransactions with
  | true => exact .inl ⟨rfl, done⟩
  | false => exact .inr ⟨rfl, done⟩

theorem delAdvertisement_of_empty {depth : Nat} {a : AdvertId} {v : Advert} {svc : Service}
    {x : Client} (advert : σ.advert a = some v) (unlinkable : σ.Unlinkable (.adv a))
    (live : σ.client v.client = some x) (service : σ.service v.svc = some svc)
    (empty : (σ.detach a v.client).EmptyQueue v.svc) :
    ∃ τ, delAdvertisement (depth + 1) a σ = .ok (⟨⟩, τ) ∧
      (τ = (σ.detach a v.client).dropAdvert a ∨
        τ = ((σ.detach a v.client).dropService v.svc).dropAdvert a) := by
  cases advertised : (σ.detach a v.client).someoneAdvertises svc.svcname with
  | true =>
      exact ⟨_, delAdvertisement_succ_ok_iff.mpr ⟨v, svc, advert, unlinkable, ⟨x, live⟩, service,
        .inl ⟨advertised, rfl⟩⟩, .inl rfl⟩
  | false =>
      have deleted : delService (delAdvertisement depth) v.svc (σ.detach a v.client) =
          .ok (⟨⟩, (σ.detach a v.client).dropService v.svc) :=
        delService_of_empty service empty
      exact ⟨_, delAdvertisement_succ_ok_iff.mpr ⟨v, svc, advert, unlinkable, ⟨x, live⟩, service,
        .inr ⟨advertised, ⟨⟩, _, deleted, rfl⟩⟩, .inr rfl⟩

/-- A list of distinct identifiers is no longer than the number of identifiers given out. -/
theorem length_le_of_nodup {ids : List Nat} {bound : Nat} (nodup : ids.Nodup)
    (old : ∀ i ∈ ids, i < bound) : ids.length ≤ bound := by
  have within : ids ⊆ List.range bound := fun i member => List.mem_range.mpr (old i member)
  simpa using (List.Nodup.subperm nodup within).length_le

/-! ## Steps -/

/-- An event of a connected client. -/
theorem step_ready {c : ClientId} {input : Option Bytes} (source : e.happening = .ready c input)
    (connected : c ∈ σ.clients) : step σ e = (serve e.env c input σ).map Prod.snd := by
  have handled : handle e σ = serve e.env c input σ := by
    unfold handle
    simp only [source]
    rw [bind_of_ok (get_ok_iff.mpr ⟨rfl, rfl⟩), if_pos connected]
  rw [step, handled]

/-- Nothing happens to a client that is not connected. -/
theorem step_absent {c : ClientId} {input : Option Bytes} (source : e.happening = .ready c input)
    (absent : c ∉ σ.clients) : step σ e = .ok σ := by
  have handled : handle e σ = .ok (⟨⟩, σ) := by
    unfold handle
    simp only [source]
    rw [bind_of_ok (get_ok_iff.mpr ⟨rfl, rfl⟩), if_neg absent]
    rfl
  rw [step, handled]
  rfl

/-- A new connection. -/
theorem step_connect (source : e.happening = .connect) :
    step σ e = .ok (σ.addClient.nextCommand σ.next) := by
  have made : newClient σ = .ok (σ.next, σ.addClient) := by
    unfold newClient
    rw [bind_of_ok (get_ok_iff.mpr ⟨rfl, rfl⟩), seq_of_ok (set_ok_iff.mpr rfl)]
    rfl
  have live : σ.addClient.client σ.next = some {} := if_pos rfl
  have armed : svrNextCommand σ.next σ.addClient = .ok (⟨⟩, σ.addClient.nextCommand σ.next) :=
    svrNextCommand_ok_iff.mpr ⟨⟨{}, live, rfl, rfl, rfl⟩, rfl⟩
  have handled : handle e σ = .ok (⟨⟩, σ.addClient.nextCommand σ.next) := by
    unfold handle
    simp only [source]
    rw [bind_of_ok made, armed]
  rw [step, handled]
  rfl

/-- A read either completes the buffer, which then goes to the handler, or does not. -/
theorem serve_piece {env : Env} {c : ClientId} {input : Option Bytes} {x : Client} {b : BufId}
    {handler : Handler} {contents piece : Bytes} (live : σ.client c = some x)
    (into : x.input = some b) (reading : x.handler = some handler) (room : σ.buf b = some contents)
    (got : input.map (List.take (contents.length - x.used)) = some piece) (nonempty : piece ≠ [])
    (fits : x.used + piece.length ≤ contents.length) :
    serve env c input σ =
      if x.used + piece.length = contents.length then
        runHandler env handler c b (σ.begin c handler b (overwrite contents x.used piece))
      else
        .ok (⟨⟩, σ.fill c b (overwrite contents x.used piece) piece) := by
  have positive : 0 < piece.length := List.length_pos_iff.mpr nonempty
  obtain ⟨byte, more, rfl⟩ := List.exists_cons_of_ne_nil nonempty
  have stored : ({ σ with buf := put σ.buf b (some (overwrite contents x.used (byte :: more))) } :
      State).client c = some x := live
  unfold serve
  rw [bind_of_ok (readClient_ok_iff.mpr ⟨live, rfl⟩)]
  simp only [into, reading]
  rw [bind_of_ok (readBuf_ok_iff.mpr ⟨room, rfl⟩), if_neg (by omega)]
  simp only [got]
  rw [seq_of_ok (modify_ok_iff.mpr rfl)]
  split
  · rw [seq_of_ok (modifyClient_ok_iff.mpr ⟨⟨x, stored⟩, rfl⟩), seq_of_ok (observe_ok_iff.mpr rfl)]
    rfl
  · exact modifyClient_ok_iff.mpr ⟨⟨x, stored⟩, rfl⟩

/-- The full buffer of a client goes to its handler. -/
theorem step_of_received {c : ClientId} {handler : Handler} {filled : Bytes}
    (received : Received σ e c handler filled) :
    ∃ x b contents, σ.client c = some x ∧ x.input = some b ∧ x.handler = some handler ∧
      σ.buf b = some contents ∧ filled.length = contents.length ∧ filled ≠ [] ∧
      step σ e = (runHandler e.env handler c b (σ.begin c handler b filled)).map Prod.snd := by
  obtain ⟨input, x, b, contents, piece, source, connected, live, reading, into, room, got, nonempty,
    full, rfl⟩ := received_elim received
  have length := length_overwrite (Nat.le_of_eq full)
  have positive : 0 < piece.length := List.length_pos_iff.mpr nonempty
  refine ⟨x, b, contents, live, into, reading, room, length, ?_, ?_⟩
  · intro empty
    rw [empty, List.length_nil] at length
    omega
  · rw [step_ready source connected,
      serve_piece live into reading room got nonempty (Nat.le_of_eq full), if_pos full]

/-- A step that completes a buffer is a call of the handler. -/
theorem runHandler_of_step {c : ClientId} {handler : Handler} {filled : Bytes} {τ : State}
    (received : Received σ e c handler filled) (done : step σ e = .ok τ) :
    ∃ x b u, σ.client c = some x ∧ x.input = some b ∧ x.handler = some handler ∧
      runHandler e.env handler c b (σ.begin c handler b filled) = .ok (u, τ) := by
  obtain ⟨x, b, _, live, into, reading, _, _, _, called⟩ := step_of_received received
  rw [called, map_snd_ok_iff] at done
  obtain ⟨u, done⟩ := done
  exact ⟨x, b, u, live, into, reading, done⟩

/-- The memory in which a handler is called has the tables of the memory before. -/
theorem sameTables_begin (c : ClientId) (handler : Handler) (b : BufId) (filled : Bytes) :
    SameTables σ (σ.begin c handler b filled) :=
  ⟨rfl, rfl, rfl, rfl, rfl, rfl, fun _ => change_map fun _ => rfl⟩

/-- The memory in which `del_client` is called. -/
inductive Left (c : ClientId) (σ : State) : State → Prop
  | ended : Left c σ σ
  | unknown (b : BufId) (filled : Bytes) : Left c σ ((σ.begin c .command b filled).freeBuf b)

theorem delClient_of_ended {c : ClientId} {input : Option Bytes} {x : Client} {τ : State}
    (source : e.happening = .ready c input) (connected : c ∈ σ.clients) (live : σ.client c = some x)
    (reason : x.handler = none ∨ x.input = none ∨
      (∃ b contents, x.input = some b ∧ σ.buf b = some contents ∧ contents.length ≤ x.used) ∨
      input = none ∨ input = some []) (done : step σ e = .ok τ) :
      ∃ u, delClient e.env c σ = .ok (u, τ) := by
  rw [step_ready source connected, map_snd_ok_iff] at done
  obtain ⟨u, served⟩ := done
  refine ⟨u, ?_⟩
  simp only [serve, bind_ok_iff, readClient_ok_iff, and_assoc, exists_and_left,
    exists_eq_left] at served
  obtain ⟨y, live', rest⟩ := served
  obtain rfl := Option.some.inj (live.symm.trans live')
  cases into : x.input with
  | none => simpa only [into] using rest
  | some b =>
      cases reading : x.handler with
      | none => simpa only [into, reading] using rest
      | some handler =>
          simp only [into, reading, bind_ok_iff, readBuf_ok_iff, and_assoc, exists_and_left,
            exists_eq_left] at rest
          obtain ⟨contents, room, rest⟩ := rest
          split at rest
          · exact rest
          · rename_i space
            rcases reason with idle | idle | ⟨b', contents', into', room', full⟩ | rfl | rfl
            · simp [idle] at reading
            · simp [idle] at into
            · obtain rfl := Option.some.inj (into.symm.trans into')
              obtain rfl := Option.some.inj (room.symm.trans room')
              exact absurd full space
            · exact rest
            · simpa using rest

theorem delClient_of_unknown {c : ClientId} {filled : Bytes} {τ : State}
    (received : Received σ e c .command filled)
    (unknown : commands[(filled.getD 0 0).toNat]? = none) (done : step σ e = .ok τ) :
    ∃ u x b, σ.client c = some x ∧ x.input = some b ∧
      delClient e.env c ((σ.begin c .command b filled).freeBuf b) = .ok (u, τ) := by
  obtain ⟨x, b, u, live, into, _, called⟩ := runHandler_of_step received done
  simp only [runHandler, command, bind_ok_iff, readBuf_ok_iff, and_assoc, exists_and_left,
    exists_eq_left] at called
  obtain ⟨contents, held, rest⟩ := called
  obtain rfl : filled = contents := Option.some.inj ((if_pos rfl).symm.trans held)
  simp only [unknown, bind_ok_iff, tpfree_ok_iff, and_assoc, exists_and_left, exists_eq_left,
    exists_const] at rest
  exact ⟨u, x, b, live, into, rest.2⟩

/-- A step that deletes a client is a call of `del_client`. -/
theorem delClient_of_step {c : ClientId} {τ : State} (closes : Closes σ e c)
    (done : step σ e = .ok τ) :
    ∃ u μ, Left c σ μ ∧ SameTables σ μ ∧ delClient e.env c μ = .ok (u, τ) := by
  rcases closes with ⟨input, x, source, connected, live, reason⟩ | ⟨filled, received, unknown⟩
  · obtain ⟨u, deleted⟩ := delClient_of_ended source connected live reason done
    exact ⟨u, σ, .ended, .refl σ, deleted⟩
  · obtain ⟨u, x, b, _, _, deleted⟩ := delClient_of_unknown received unknown done
    exact ⟨u, _, .unknown b filled, (sameTables_begin c .command b filled).freeBuf b, deleted⟩

/-- A client whose buffer is allocated can be deleted, as far as `Iowait` and `command` go. -/
theorem step_closes {c : ClientId} (closes : Closes σ e c)
    (room : ∀ x b, σ.client c = some x → x.input = some b → ∃ contents, σ.buf b = some contents) :
    ∃ φ μ, Left c σ μ ∧ (φ = {} ∨ φ = { run := some c }) ∧ Trace σ e ⟨{}, σ⟩ ⟨φ, μ⟩ ∧
      SameTables σ μ ∧ step σ e = (delClient e.env c μ).map Prod.snd := by
  rcases closes with ⟨input, x, source, connected, live, reason⟩ | ⟨filled, received, unknown⟩
  · refine ⟨{}, σ, .ended, .inl rfl, .refl, .refl σ, ?_⟩
    rw [step_ready source connected]
    congr 1
    unfold serve
    rw [bind_of_ok (readClient_ok_iff.mpr ⟨live, rfl⟩)]
    cases into : x.input with
    | none => rfl
    | some b =>
        cases reading : x.handler with
        | none => rfl
        | some handler =>
            obtain ⟨contents, stored⟩ := room x b live into
            simp only []
            rw [bind_of_ok (readBuf_ok_iff.mpr ⟨stored, rfl⟩)]
            split
            · rfl
            · rename_i space
              rcases reason with idle | idle | ⟨b', contents', into', stored', full⟩ | rfl | rfl
              · simp [idle] at reading
              · simp [idle] at into
              · obtain rfl := Option.some.inj (into.symm.trans into')
                obtain rfl := Option.some.inj (stored.symm.trans stored')
                exact absurd full space
              · rfl
              · simp
  · obtain ⟨x, b, contents, live, into, reading, stored, length, nonempty, called⟩ :=
      step_of_received received
    have held : (σ.begin c .command b filled).buf b = some filled := if_pos rfl
    have trace : Trace σ e ⟨{}, σ⟩ ⟨{ run := some c }, (σ.begin c .command b filled).freeBuf b⟩ :=
      .head (.begin received live into reading stored length nonempty) (.single (.release rfl held))
    refine ⟨_, _, .unknown b filled, .inr rfl, trace,
      (sameTables_begin c .command b filled).freeBuf b, ?_⟩
    rw [called]
    congr 1
    simp only [runHandler, command]
    rw [bind_of_ok (readBuf_ok_iff.mpr ⟨held, rfl⟩), unknown]
    simp only []
    rw [seq_of_ok (tpfree_ok_iff.mpr ⟨⟨filled, held⟩, rfl⟩)]

theorem reading_cases {c : ClientId} {x : Client} {b : BufId} {handler : Handler}
    {contents bytes : Bytes} (source : e.happening = .ready c (some bytes))
    (connected : c ∈ σ.clients) (live : σ.client c = some x) (into : x.input = some b)
    (reading : x.handler = some handler) (room : σ.buf b = some contents)
    (space : x.used < contents.length) (nonempty : bytes ≠ []) :
    (∃ filled, Received σ e c handler filled) ∨
      ∃ contents piece, step σ e = .ok (σ.fill c b contents piece) := by
  obtain ⟨piece, taken⟩ : ∃ piece, piece = bytes.take (contents.length - x.used) := ⟨_, rfl⟩
  have got : (some bytes).map (List.take (contents.length - x.used)) = some piece := by
    rw [taken, Option.map_some]
  have some_ : piece ≠ [] := by
    intro empty
    rw [taken, List.take_eq_nil_iff] at empty
    rcases empty with full | empty
    · omega
    · exact nonempty empty
  have fits : x.used + piece.length ≤ contents.length := by
    rw [taken, List.length_take]
    omega
  by_cases complete : x.used + piece.length = contents.length
  · exact .inl ⟨_, received_intro source connected live reading into room got some_ complete⟩
  · refine .inr ⟨overwrite contents x.used piece, piece, ?_⟩
    rw [step_ready source connected, serve_piece live into reading room got some_ fits,
      if_neg complete]
    rfl

/-- An event of a client whose buffer is allocated ends the connection, completes the buffer, or
adds to it. -/
theorem ready_cases {c : ClientId} {input : Option Bytes} {x : Client}
    (source : e.happening = .ready c input) (connected : c ∈ σ.clients)
    (live : σ.client c = some x)
    (room : ∀ b, x.input = some b → ∃ contents, σ.buf b = some contents) :
    Closes σ e c ∨ (∃ handler filled, Received σ e c handler filled) ∨
      ∃ b contents piece, step σ e = .ok (σ.fill c b contents piece) := by
  by_cases ends : x.handler = none ∨ x.input = none ∨
      (∃ b contents, x.input = some b ∧ σ.buf b = some contents ∧ contents.length ≤ x.used) ∨
      input = none ∨ input = some []
  · exact .inl (.inl ⟨input, x, source, connected, live, ends⟩)
  · simp only [not_or, not_exists, not_and, Nat.not_le] at ends
    obtain ⟨reading, into, space, answered, nonempty⟩ := ends
    obtain ⟨handler, reading⟩ := Option.ne_none_iff_exists'.mp reading
    obtain ⟨b, into⟩ := Option.ne_none_iff_exists'.mp into
    obtain ⟨bytes, rfl⟩ := Option.ne_none_iff_exists'.mp answered
    obtain ⟨contents, stored⟩ := room b into
    rcases reading_cases source connected live into reading stored (space b contents into stored)
      (fun empty => nonempty (congrArg some empty)) with ⟨filled, received⟩ | ⟨filled, piece, done⟩
    · exact .inr (.inl ⟨handler, filled, received⟩)
    · exact .inr (.inr ⟨b, filled, piece, done⟩)

theorem client_of_delClient {env : Env} {c : ClientId} {u : PUnit} {τ : State}
    (done : delClient env c σ = .ok (u, τ)) : τ.client c = none := by
  simp only [delClient, delClientBy, failWorkWith_plain, delAdvertsWith_plain, delQueueWith_plain,
    id_eq, bind_ok_iff, modify_ok_iff] at done
  obtain ⟨_, _, _, _, _, _, _, _, _, _, _, _, _, _, _, rfl⟩ := done
  exact if_pos rfl

end Switchboard
end Xatmi
