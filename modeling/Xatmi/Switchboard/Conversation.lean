import Xatmi.Switchboard.Answers
import Xatmi.Switchboard.Registration

/-!
# One command of a client

What a client has stored stays as long as it does not withdraw it, and nothing happens to a client
that is not heard from.
-/

namespace Xatmi
namespace Switchboard

open Program

variable {e : Event} {σ τ : State} {c : ClientId}

/-! ## Pointers along a run -/

theorem offers_of_step (inv : Inv ⟨{}, σ⟩) (done : step σ e = .ok τ) (c : ClientId) (name : Bytes) :
    τ.offers c name = σ.offers c name ∨
      (∃ filled, Received σ e c .svradvertise filled ∧
        cname (filled.take XATMI_SERVICE_NAME_LENGTH) = name ∧
        τ.offers c name =
          some ((σ.offers c name).getD (tolong (filled.drop XATMI_SERVICE_NAME_LENGTH)))) ∨
      (∃ filled, Received σ e c .svrunadvertise filled ∧
        cname (filled.take XATMI_SERVICE_NAME_LENGTH) = name) ∨
      Closes σ e c := by
  by_cases advertises : ∃ k filled, Received σ e k .svradvertise filled
  · obtain ⟨k, filled, received⟩ := advertises
    rw [(svradvertise_refines inv received done).1]
    unfold Offers.advertise
    split
    · rename_i here
      obtain ⟨rfl, same⟩ := here
      exact .inr (.inl ⟨filled, received, same.symm, by rw [same]⟩)
    · exact .inl rfl
  by_cases withdraws : ∃ k filled, Received σ e k .svrunadvertise filled
  · obtain ⟨k, filled, received⟩ := withdraws
    rw [(svrunadvertise_refines inv received done).1]
    unfold Offers.withdraw
    split
    · rename_i here
      obtain ⟨rfl, same⟩ := here
      exact .inr (.inr (.inl ⟨filled, received, same.symm⟩))
    · exact .inl rfl
  by_cases leaves : ∃ k, Closes σ e k
  · obtain ⟨k, closes⟩ := leaves
    rw [delClient_refines inv closes done]
    unfold Offers.leave
    split
    · rename_i here
      exact .inr (.inr (.inr (here ▸ closes)))
    · exact .inl rfl
  simp only [not_exists] at advertises withdraws leaves
  rw [others_refine inv advertises withdraws leaves done]
  exact .inl rfl

/-- Client `c` does not withdraw the name. -/
def Keeps (c : ClientId) (name : Bytes) (σ : State) (e : Event) : Prop :=
  ∀ filled, Received σ e c .svrunadvertise filled →
    cname (filled.take XATMI_SERVICE_NAME_LENGTH) ≠ name

theorem gone_of_run {events : List Event} (reach : Reachable anyStep σ) (gone : c ∉ σ.clients)
    (old : c < σ.next) (execution : run σ events = .ok τ) : c ∉ τ.clients := by
  induction events generalizing σ with
  | nil =>
      obtain rfl := Except.ok.inj execution
      exact gone
  | cons e events ih =>
      obtain ⟨μ, done, execution⟩ := run_cons_ok_iff.mp execution
      have trace := step_trace (inv_of_reachable reach) done
      refine ih (.next reach trivial done) (fun connected => ?_)
        (old.trans_le (next_le_of_trace trace)) execution
      rcases connected_of_trace trace connected with before | new
      · exact gone before
      · exact absurd old (Nat.not_lt.mpr new)

theorem gone_of_closes {events : List Event} {μ : State} (reach : Reachable anyStep σ)
    (closes : Closes σ e c) (done : step σ e = .ok μ) (execution : run μ events = .ok τ) :
    c ∉ τ.clients := by
  have inv := inv_of_reachable reach
  have reach' : Reachable anyStep μ := .next reach trivial done
  obtain ⟨_, _, _, _, deleted⟩ := delClient_of_step closes done
  have left : μ.client c = none := client_of_delClient deleted
  refine gone_of_run reach' (fun connected => ?_)
    ((inv.fresh.clients c closes.connected).trans_le (next_le_of_trace (step_trace inv done)))
    execution
  obtain ⟨x, live⟩ := ((inv_of_reachable reach').registry.mem_clients c).mp connected
  rw [left] at live
  cases live

theorem offers_of_run {events : List Event} {name : Bytes} {func : BitVec 64}
    (reach : Reachable anyStep σ) (stored : σ.offers c name = some func)
    (execution : run σ events = .ok τ) (connected : c ∈ τ.clients)
    (keeps : ∀ first e rest μ, events = first ++ e :: rest → run σ first = .ok μ →
      Keeps c name μ e) :
    τ.offers c name = some func := by
  induction events generalizing σ with
  | nil =>
      obtain rfl := Except.ok.inj execution
      exact stored
  | cons e events ih =>
      obtain ⟨μ, done, execution⟩ := run_cons_ok_iff.mp execution
      refine ih (.next reach trivial done) ?_ execution ?_
      · rcases offers_of_step (inv_of_reachable reach) done c name with
          same | ⟨_, _, _, again⟩ | ⟨filled, received, withdrawn⟩ | closes
        · exact same.trans stored
        · rw [again, stored]
          rfl
        · exact absurd withdrawn (keeps [] e events σ rfl rfl filled received)
        · exact absurd connected (gone_of_closes reach closes done execution)
      · intro first e' rest ρ split ran
        exact keeps (e :: first) e' rest ρ (by rw [split]; rfl) (run_cons_ok_iff.mpr ⟨μ, done, ran⟩)

/-! ## Commands -/

/-- A client that is not heard from, and not deleted, is where it was. -/
theorem State.Reading.quiet {handler : Handler} {room : Nat} {got : Bytes} {events : List Event}
    {motive : State → Prop} (reach : Reachable anyStep σ) (reading : σ.Reading c handler room got)
    (fixed : handler ≠ .part2) (execution : run σ events = .ok τ) (silent : stream c σ events = [])
    (connected : c ∈ τ.clients) (start : motive σ)
    (kept : ∀ μ e μ' got, Reachable anyStep μ → μ.Reading c handler room got →
      Switchboard.step μ e = .ok μ' → (∀ input, e.happening ≠ .ready c input) ∨
      (∃ b contents piece, μ' = μ.fill c b contents piece) →
      motive μ → motive μ') :
    τ.Reading c handler room got ∧ τ.sent c = σ.sent c ∧ motive τ := by
  induction events generalizing σ with
  | nil =>
      obtain rfl := Except.ok.inj execution
      exact ⟨reading, rfl, start⟩
  | cons e events ih =>
      obtain ⟨μ, done, execution⟩ := run_cons_ok_iff.mp execution
      have inv := inv_of_reachable reach
      have reach' : Reachable anyStep μ := .next reach trivial done
      rw [stream_cons done, List.append_eq_nil_iff] at silent
      obtain ⟨nothing, silent⟩ := silent
      have continues : μ.Reading c handler room got → μ.sent c = σ.sent c → motive μ →
          τ.Reading c handler room got ∧ τ.sent c = σ.sent c ∧ motive τ := by
        intro reading' unsent holds
        obtain ⟨reading'', unsent', holds'⟩ := ih reach' reading' execution silent holds
        exact ⟨reading'', unsent'.trans unsent, holds'⟩
      by_cases mine : ∃ input, e.happening = .ready c input
      · obtain ⟨input, source⟩ := mine
        rcases reading.own inv source done with ⟨_, gone⟩ | ⟨reading', fills, _⟩ | ⟨_, full⟩
        · have absent : c ∉ μ.clients := by
            intro still
            obtain ⟨x, live⟩ := ((inv_of_reachable reach').registry.mem_clients c).mp still
            simp [gone] at live
          have old : c < μ.next := (inv.fresh.clients c (reading.connected inv)).trans_le
            (next_le_of_trace (step_trace inv done))
          exact absurd connected (gone_of_run reach' absent old execution)
        · rw [nothing, List.append_nil] at reading'
          refine continues reading' ?_ (kept σ e μ got reach reading done (.inr fills) start)
          obtain ⟨_, _, _, rfl⟩ := fills
          rfl
        · have short := reading.short inv
          rw [nothing, List.append_nil] at full
          exact absurd full short.ne
      · simp only [not_exists] at mine
        obtain ⟨reading', unsent⟩ := reading.other inv (apart_of_reachable reach) fixed mine done
        exact continues reading' unsent (kept σ e μ got reach reading done (.inl mine) start)

/-- A message with a fixed part is taken from the stream as its type and that part. -/
theorem State.Reading.message {kind : Byte} {body rest : Bytes} {handler : Handler}
    {events : List Event} {motive : State → Prop} {allowed : State → Event → Prop}
    (reach : Reachable allowed σ) (meets : Meets allowed σ events)
    (reading : σ.Reading c .command 1 []) (execution : run σ events = .ok τ)
    (known : commands[kind.toNat]? = some (handler, body.length)) (nonempty : body ≠ [])
    (sends : stream c σ events = kind :: (body ++ rest)) (start : motive σ)
      (kept : ∀ μ e μ', Reachable allowed μ → allowed μ e → PassesBy c μ e →
      (∃ handler room got, handler ≠ .part2 ∧ μ.Reading c handler room got) →
      Switchboard.step μ e = .ok μ' → (∀ input, e.happening ≠ .ready c input) ∨
      (∃ b contents piece, μ' = μ.fill c b contents piece) →
      motive μ → motive μ')
    (command : ∀ μ e μ' filled, Reachable allowed μ → allowed μ e → Received μ e c .command filled →
      filled.getD 0 0 = kind → Switchboard.step μ e = .ok μ' → (∃ x, μ'.client c = some x) →
      motive μ → motive μ') :
    ∃ first e tail ρ ρ', events = first ++ e :: tail ∧ run σ first = .ok ρ ∧
      Switchboard.step ρ e = .ok ρ' ∧ run ρ' tail = .ok τ ∧ Received ρ e c handler body ∧
      stream c ρ' tail = rest ∧ ρ.sent c = σ.sent c ∧
      motive ρ := by
  have fixed : handler ≠ .part2 := by
    rintro rfl
    exact absurd (commands_fixed known) (by decide)
  obtain ⟨first, e, tail, ρ, ρ', rfl, ran, done, execution', received, length, split,
      silent, holds⟩ :=
    reading.receives reach meets (by decide) execution (by simp [sends]) start
      fun μ e μ' got reach permits passes reading done cause =>
        kept μ e μ' reach permits passes ⟨_, _, got, by decide, reading⟩ done cause
  obtain ⟨byte, typed⟩ := List.length_eq_one_iff.mp
    ((Nat.zero_add _).symm.trans length : (stream c σ (first ++ [e])).length = 1)
  rw [sends, typed, List.singleton_append, List.cons.injEq] at split
  obtain ⟨rfl, sends'⟩ := split
  rw [typed, List.nil_append] at received
  have reachρ : Reachable allowed ρ := reach.meets meets.take ran
  obtain ⟨permits, rest_⟩ : Meets allowed ρ (e :: tail) := meets.drop ran
  have reachρ' : Reachable allowed ρ' := .next reachρ permits done
  obtain ⟨reading', silent'⟩ := step_command received known (by simpa using nonempty) done
  have holds' : motive ρ' := by
    refine command ρ e ρ' _ reachρ permits received rfl done ?_ holds
    obtain ⟨x, _, _, live, _⟩ := reading'
    exact ⟨x, live⟩
  obtain ⟨first', e', tail', μ, μ', rfl, ran', done', execution'', received', length', split',
      silent'', holds''⟩ :=
    reading'.receives reachρ' (rest_ ρ' done) fixed execution' (by simp [← sends']) holds'
      fun μ e μ' got reach permits passes reading done cause =>
        kept μ e μ' reach permits passes ⟨_, _, got, fixed, reading⟩ done cause
  rw [← sends'] at split'
  obtain ⟨whole, left⟩ := List.append_inj split'
    ((Nat.zero_add _).symm.trans length' : (stream c ρ' (first' ++ [e'])).length = body.length).symm
  refine ⟨first ++ e :: first', e', tail', μ, μ', by simp, ?_, done', execution'', ?_, left.symm,
    ?_, holds''⟩
  · exact run_append_ok_iff.mpr ⟨ρ, ran, run_cons_ok_iff.mpr ⟨ρ', done, ran'⟩⟩
  · rw [whole]
    exact received'
  · rw [silent'', silent', silent]

theorem offers_fill (k : ClientId) (b : BufId) (contents piece : Bytes) :
    (σ.fill k b contents piece).offers = σ.offers := by
  funext c name
  have same : ((σ.fill k b contents piece).client c).map Client.adverts =
      (σ.client c).map Client.adverts :=
    change_map fun _ => rfl
  let find : List AdvertId → Option (BitVec 64) := fun adverts =>
    (adverts.find? fun a => (σ.advertName a).any fun n => cname n = name).bind fun a =>
      (σ.advert a).map Advert.opaqueFunc
  have whole : ∀ found : Option Client, (found.bind fun x => find x.adverts) =
      (found.map Client.adverts).bind find := by
    intro found
    cases found <;> rfl
  calc (σ.fill k b contents piece).offers c name
      = (((σ.fill k b contents piece).client c).map Client.adverts).bind find := whole _
    _ = ((σ.client c).map Client.adverts).bind find := by rw [same]
    _ = σ.offers c name := (whole _).symm

theorem offers_of_other (inv : Inv ⟨{}, σ⟩) (done : step σ e = .ok τ)
    (other : ∀ input, e.happening ≠ .ready c input) (name : Bytes) :
    τ.offers c name = σ.offers c name := by
  have silent : ∀ {handler filled}, ¬Received σ e c handler filled := by
    intro handler filled received
    obtain ⟨input, _, _, _, _, source, _⟩ := received_elim received
    exact other input source
  rcases offers_of_step inv done c name with same | ⟨_, received, _⟩ | ⟨_, received, _⟩ | closes
  · exact same
  · exact absurd received silent
  · exact absurd received silent
  · obtain ⟨input, source⟩ := closes.source
    exact absurd source (other input)

/-- While a client is being read from, it keeps what it has stored. -/
theorem offers_of_reading (inv : Inv ⟨{}, σ⟩) (done : step σ e = .ok τ) (name : Bytes)
    (cause : (∀ input, e.happening ≠ .ready c input) ∨ ∃ b contents piece,
      τ = σ.fill c b contents piece) :
    τ.offers c name = σ.offers c name := by
  rcases cause with other | ⟨b, contents, piece, rfl⟩
  · exact offers_of_other inv done other name
  · rw [offers_fill]

theorem offers_of_command {filled : Bytes} (inv : Inv ⟨{}, σ⟩)
    (received : Received σ e c .command filled) (done : step σ e = .ok τ)
    (stays : ∃ x, τ.client c = some x) (name : Bytes) :
    τ.offers c name = σ.offers c name := by
  have command : ∀ {handler filled'}, Received σ e c handler filled' → handler = .command := by
    intro handler filled' received'
    have again := received'.symm.trans received
    simp only [Option.some.injEq, Prod.mk.injEq] at again
    exact again.2.1
  rcases offers_of_step inv done c name with kept | ⟨_, received', _⟩ | ⟨_, received', _⟩ | closes
  · exact kept
  · cases command received'
  · cases command received'
  · obtain ⟨x, live⟩ := stays
    obtain ⟨_, _, _, _, deleted⟩ := delClient_of_step closes done
    rw [client_of_delClient deleted] at live
    cases live

theorem reading_of_advertise {filled : Bytes} (received : Received σ e c .svradvertise filled)
    (done : step σ e = .ok τ) : τ.Reading c .command 1 [] := by
  obtain ⟨x, b, u, live, into, reading, called⟩ := runHandler_of_step received done
  simp only [runHandler, runCommand, svradvertise, bind_ok_iff, readBuf_ok_iff, tpfree_ok_iff,
    readAdvert_ok_iff, and_assoc, exists_and_left, exists_eq_left, exists_const] at called
  obtain ⟨_, _, _, _, _, _, _, _, rest⟩ := called
  split at rest <;>
    obtain ⟨⟨x, live, _⟩, rfl⟩ := answer_ok_iff.mp rest <;>
    exact reading_nextCommand live

theorem reading_of_unadvertise {filled : Bytes} (received : Received σ e c .svrunadvertise filled)
    (done : step σ e = .ok τ) : τ.Reading c .command 1 [] := by
  obtain ⟨x, b, u, live, into, reading, called⟩ := runHandler_of_step received done
  simp only [runHandler, runCommand, svrunadvertise, svrunadvertiseBy, delAdvertisementWith_plain,
    id_eq, bind_ok_iff, readBuf_ok_iff, get_ok_iff, tpfree_ok_iff, and_assoc, exists_and_left,
    exists_eq_left, exists_const] at called
  obtain ⟨contents, _, _, rest⟩ := called
  cases found : (σ.begin c .svrunadvertise b filled).fndAdvertisement c
      (contents.take XATMI_SERVICE_NAME_LENGTH) with
  | none =>
      simp only [found] at rest
      obtain ⟨⟨x, live, _⟩, rfl⟩ := answer_ok_iff.mp rest
      exact reading_nextCommand live
  | some a =>
      simp only [found] at rest
      obtain ⟨_, _, _, rest⟩ := bind_ok_iff.mp rest
      obtain ⟨⟨x, live, _⟩, rfl⟩ := answer_ok_iff.mp rest
      exact reading_nextCommand live

end Switchboard
end Xatmi
