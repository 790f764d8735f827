import Xatmi.Switchboard.Progress
import Xatmi.Switchboard.Scenario

/-!
# How a stream is cut

What a peer sends arrives in pieces, and `Iowait` reads no more than the room left in the buffer.
Reading a piece comes to the same as reading its bytes one by one, so only the stream matters.
-/

namespace Xatmi
namespace Switchboard

open Program

/-! ## Feeding a stream -/

/-- Deliver the pieces of a stream to client `c`. What the environment chooses while a piece is
handled depends on what the switchboard has done so far, and not on the pieces. -/
def feed (choices : List Obs → Env) (c : ClientId) (σ : State) : List Bytes → Except Fault State
  | [] => .ok σ
  | piece :: pieces =>
      (step σ ⟨choices σ.log, .ready c (some piece)⟩).bind fun τ => feed choices c τ pieces

/-- The number of bytes that `Iowait` asks for when client `c` is ready, if anything is being
read. -/
def State.asked (σ : State) (c : ClientId) : Option Nat := do
  let x ← σ.client c
  let b ← x.input
  let contents ← σ.buf b
  pure (contents.length - x.used)

/-- The pieces can be what successive reads return: none is empty, and none is longer than what was
asked for. -/
def fits (choices : List Obs → Env) (c : ClientId) (σ : State) : List Bytes → Bool
  | [] => true
  | piece :: pieces =>
      !piece.isEmpty && (σ.asked c).all (piece.length ≤ ·) &&
        match step σ ⟨choices σ.log, .ready c (some piece)⟩ with
        | .ok τ => fits choices c τ pieces
        | .error _ => true

variable {choices : List Obs → Env} {c : ClientId} {σ τ : State}

theorem asked_eq_some_iff {n : Nat} : σ.asked c = some n ↔ ∃ x b contents, σ.client c = some x ∧
    x.input = some b ∧ σ.buf b = some contents ∧ contents.length - x.used = n := by
  simp [State.asked, Option.bind_eq_some_iff]

/-! ## One byte after the other -/

theorem overwrite_cons {contents more : Bytes} {used : Nat} {byte : Byte}
    (fits : used + (byte :: more).length ≤ contents.length) :
    overwrite (overwrite contents used [byte]) (used + 1) more =
      overwrite contents used (byte :: more) := by
  rw [List.length_cons] at fits
  have front : (contents.take used).length = used := by
    rw [List.length_take]
    omega
  have taken : (overwrite contents used [byte]).take (used + 1) = contents.take used ++ [byte] := by
    simp only [overwrite, List.append_assoc]
    rw [List.take_append, front, List.take_of_length_le (by omega)]
    simp
  have dropped : (overwrite contents used [byte]).drop (used + 1 + more.length) =
      contents.drop (used + (byte :: more).length) := by
    have prefix_ : (contents.take used ++ [byte]).length = used + 1 := by simp [front]
    rw [overwrite, List.drop_append, prefix_, List.drop_of_length_le (by omega), List.drop_drop,
      List.nil_append]
    simp only [List.length_cons, List.length_nil]
    congr 1
    omega
  rw [overwrite, taken, dropped, overwrite]
  simp

theorem put_put {α : Type} (store : Nat → Option α) (key : Nat) (first second : Option α) :
    put (put store key first) key second = put store key second := by
  funext k
  unfold put
  split <;> rfl

theorem fill_fill (b : BufId) (first second : Bytes) (byte : Byte) (more : Bytes) :
    (σ.fill c b first [byte]).fill c b second more = σ.fill c b second (byte :: more) := by
  have client : (fun x : Client => { x with used := x.used + more.length }) ∘
      (fun x : Client => { x with used := x.used + [byte].length }) =
        fun x => { x with used := x.used + (byte :: more).length } := by
    funext x
    simp only [Function.comp_apply, List.length_cons, List.length_nil]
    congr 1
    omega
  simp only [State.fill, State.mapClient, change_change, client, put_put]

theorem begin_fill (b : BufId) (handler : Handler) (first second piece : Bytes) :
    (σ.fill c b first piece).begin c handler b second = σ.begin c handler b second := by
  simp only [State.fill, State.begin, State.mapClient, State.observe, change_change, put_put]
  rfl

theorem serve_idle {env : Env} {input : Option Bytes} {x : Client} (live : σ.client c = some x)
    (idle : x.input = none) : serve env c input σ = delClient env c σ := by
  unfold serve
  rw [bind_of_ok (readClient_ok_iff.mpr ⟨live, rfl⟩), idle]

theorem asked_eq_none (gone : σ.client c = none) : σ.asked c = none := by
  simp [State.asked, gone]

theorem client_of_step_idle {env : Env} {input : Option Bytes} {x : Client}
    (connected : c ∈ σ.clients) (live : σ.client c = some x) (idle : x.input = none)
    (done : step σ ⟨env, .ready c input⟩ = .ok τ) : τ.client c = none := by
  obtain ⟨_, _, _, _, deleted⟩ :=
    delClient_of_step (.inl ⟨input, x, rfl, connected, live, .inr (.inl idle)⟩) done
  exact client_of_delClient deleted

variable (choices) in
theorem step_cons_reading {x : Client} {b : BufId} {handler : Handler} {contents : Bytes}
    {byte : Byte} {more : Bytes} (connected : c ∈ σ.clients) (live : σ.client c = some x)
    (into : x.input = some b) (reading : x.handler = some handler) (room : σ.buf b = some contents)
    (nonempty : more ≠ []) (fits : x.used + (byte :: more).length ≤ contents.length) :
    ∃ τ, step σ ⟨choices σ.log, .ready c (some [byte])⟩ = .ok τ ∧
      step τ ⟨choices τ.log, .ready c (some more)⟩ =
        step σ ⟨choices σ.log, .ready c (some (byte :: more))⟩ ∧
      ∀ n, τ.asked c = some n → more.length ≤ n := by
  have positive : 0 < more.length := List.length_pos_iff.mpr nonempty
  have enough : x.used + 1 + more.length ≤ contents.length := by
    rw [List.length_cons] at fits
    omega
  have whole : ∀ {piece : Bytes} {room : Nat}, piece.length ≤ room →
      (some piece).map (List.take room) = some piece := by
    intro piece room enough
    rw [Option.map_some, List.take_of_length_le enough]
  have length : (overwrite contents x.used [byte]).length = contents.length :=
    length_overwrite (by simp; omega)
  have live' : (σ.fill c b (overwrite contents x.used [byte]) [byte]).client c =
      some { x with used := x.used + 1 } :=
    change_eq_some_iff.mpr ⟨x, live, by simp⟩
  have room' : (σ.fill c b (overwrite contents x.used [byte]) [byte]).buf b =
      some (overwrite contents x.used [byte]) :=
    put_eq_some_iff.mpr (.inl ⟨rfl, rfl⟩)
  have connected' : c ∈ (σ.fill c b (overwrite contents x.used [byte]) [byte]).clients := connected
  refine ⟨σ.fill c b (overwrite contents x.used [byte]) [byte], ?_, ?_, ?_⟩
  · rw [step_ready rfl connected, serve_piece live into reading room (whole (by simp; omega))
      (by simp) (by simp; omega), if_neg (by simp; omega)]
    rfl
  · rw [step_ready (σ := σ) rfl connected, serve_piece live into reading room
      (whole (by simp; omega)) (by simp) fits, step_ready rfl connected',
      serve_piece live' into reading room' (whole (by simp only [length]; omega)) nonempty
        (by simpa only [length] using enough),
      overwrite_cons fits, begin_fill, fill_fill, length, List.length_cons, Nat.add_assoc,
      Nat.add_comm 1]
    rfl
  · intro n asked
    obtain ⟨y, b', contents', seen, into', room'', rfl⟩ := asked_eq_some_iff.mp asked
    obtain rfl := Option.some.inj (live'.symm.trans seen)
    obtain rfl := Option.some.inj (into.symm.trans into')
    obtain rfl := Option.some.inj (room'.symm.trans room'')
    simp only [length]
    omega

variable (choices) in
theorem step_cons (inv : Inv ⟨{}, σ⟩) {byte : Byte} {more : Bytes} (nonempty : more ≠ [])
    (fit : ∀ n, σ.asked c = some n → (byte :: more).length ≤ n) :
    step σ ⟨choices σ.log, .ready c (some (byte :: more))⟩ =
        (step σ ⟨choices σ.log, .ready c (some [byte])⟩).bind
          (fun τ => step τ ⟨choices τ.log, .ready c (some more)⟩) ∧
      ∀ τ, step σ ⟨choices σ.log, .ready c (some [byte])⟩ = .ok τ →
        ∀ n, τ.asked c = some n → more.length ≤ n := by
  by_cases connected : c ∈ σ.clients
  · obtain ⟨x, live⟩ : ∃ x, σ.client c = some x := (inv.registry.mem_clients c).mp connected
    cases into : x.input with
    | none =>
        have same : step σ ⟨choices σ.log, .ready c (some (byte :: more))⟩ =
            step σ ⟨choices σ.log, .ready c (some [byte])⟩ := by
          rw [step_ready rfl connected, step_ready rfl connected, serve_idle live into,
            serve_idle live into]
        constructor
        · rw [same]
          cases done : step σ ⟨choices σ.log, .ready c (some [byte])⟩ with
          | error fault => rfl
          | ok τ =>
              refine (step_absent rfl ?_).symm
              intro still
              have registry : Registry {} τ := (inv.trace (step_trace inv done)).registry
              obtain ⟨y, live'⟩ := (registry.mem_clients c).mp still
              simp [client_of_step_idle connected live into done] at live'
        · intro τ done n asked
          simp [asked_eq_none (client_of_step_idle connected live into done)] at asked
    | some b =>
        obtain ⟨handler, reading⟩ : ∃ handler, x.handler = some handler := by
          refine Option.ne_none_iff_exists'.mp fun none_ => ?_
          simp [((inv.readers c x live).idle none_).2.1] at into
        cases room : σ.buf b with
        | none =>
            have missing : readBuf b σ = .error .useAfterFree := demand_of_none room
            have faults : ∀ input, step σ ⟨choices σ.log, .ready c input⟩ =
                .error .useAfterFree := by
              intro input
              rw [step_ready rfl connected]
              unfold serve
              rw [bind_of_ok (readClient_ok_iff.mpr ⟨live, rfl⟩)]
              simp only [into, reading]
              rw [bind_of_error missing]
              rfl
            rw [faults, faults]
            exact ⟨rfl, by simp⟩
        | some contents =>
            have space := inv.buffers.space c x b contents live into room
            have fit := fit _ (asked_eq_some_iff.mpr ⟨x, b, contents, live, into, room, rfl⟩)
            have fits : x.used + (byte :: more).length ≤ contents.length := by omega
            obtain ⟨τ, first, rest, asked⟩ :=
              step_cons_reading choices connected live into reading room
                nonempty fits
            rw [first, ← rest]
            refine ⟨rfl, ?_⟩
            rintro τ' done
            obtain rfl := Except.ok.inj done
            exact asked
  · rw [step_absent rfl connected, step_absent rfl connected]
    refine ⟨(step_absent rfl connected).symm, ?_⟩
    intro τ done n asked
    obtain rfl := Except.ok.inj done
    obtain ⟨x, _, _, live, _⟩ := asked_eq_some_iff.mp asked
    exact absurd ((inv.registry.mem_clients c).mpr ⟨x, live⟩) connected

/-! ## Streams -/

theorem feed_split {piece : Bytes} {pieces : List Bytes} (inv : Inv ⟨{}, σ⟩) (nonempty : piece ≠ [])
    (fit : ∀ n, σ.asked c = some n → piece.length ≤ n) :
    feed choices c σ (piece :: pieces) = feed choices c σ (piece.map ([·]) ++ pieces) := by
  induction piece generalizing σ with
  | nil => exact absurd rfl nonempty
  | cons byte more ih =>
      by_cases last : more = []
      · subst last
        rfl
      · obtain ⟨split, asked⟩ := step_cons choices inv last fit
        change (step σ _).bind _ = (step σ _).bind _
        rw [split]
        cases done : step σ ⟨choices σ.log, .ready c (some [byte])⟩ with
        | error fault => rfl
        | ok τ => exact ih (inv.trace (step_trace inv done)) last (asked τ done)

theorem feed_bytes {pieces : List Bytes} (inv : Inv ⟨{}, σ⟩) (cut : fits choices c σ pieces) :
    feed choices c σ pieces = feed choices c σ (pieces.flatten.map ([·])) := by
  induction pieces generalizing σ with
  | nil => rfl
  | cons piece pieces ih =>
      simp only [fits, Bool.and_eq_true, Bool.not_eq_eq_eq_not, Bool.not_true,
        List.isEmpty_eq_false_iff] at cut
      obtain ⟨⟨nonempty, fit⟩, rest⟩ := cut
      have fit : ∀ n, σ.asked c = some n → piece.length ≤ n := by
        intro n asked
        simpa [asked] using fit
      have tail : feed choices c σ (piece :: pieces) =
          feed choices c σ (piece :: pieces.flatten.map ([·])) := by
        simp only [feed]
        cases done : step σ ⟨choices σ.log, .ready c (some piece)⟩ with
        | error fault => rfl
        | ok τ =>
            simp only [done] at rest
            exact ih (inv.trace (step_trace inv done)) rest
      rw [tail, feed_split inv nonempty fit, List.flatten_cons, List.map_append]

/-- However the stream of a connection is cut into pieces, the switchboard ends in the same memory,
with the same record of handlers called and the same output, or dies in the same way. -/
theorem segmentation_irrelevant (reach : Reachable anyStep σ) (choices : List Obs → Env)
    (c : ClientId) {first second : List Bytes} (cut : fits choices c σ first)
    (cut' : fits choices c σ second) (same : first.flatten = second.flatten) :
    feed choices c σ first = feed choices c σ second := by
  have inv := inv_of_reachable reach
  rw [feed_bytes inv cut, feed_bytes inv cut', same]

open Scenario in
/-- A `TPTADVT` in two pieces and in four. -/
theorem segmentation_irrelevant_advertise : ∃ σ, run .start [connect] = .ok σ ∧
    feed (fun _ => .plain 0 0) 0 σ [[TPTADVT], svcname 65 ++ longBytes 7] =
      feed (fun _ => .plain 0 0) 0 σ [[TPTADVT], [65], List.replicate 14 0, longBytes 7] := by
  have execution : run .start [connect] = .ok (State.start.addClient.nextCommand 0) := rfl
  exact ⟨_, execution, segmentation_irrelevant (Reachable.start.run execution) _ 0
    (by decide +kernel) (by decide +kernel) (by decide +kernel)⟩

end Switchboard
end Xatmi
