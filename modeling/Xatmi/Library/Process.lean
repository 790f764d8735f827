import Xatmi.Library.Exchanges

/-!
# Processes

A process makes its library calls one after the other, and others are served while it does not. As
long as it collects no reply to a failed transaction, asks for work only when it executes nothing
and returns only what it executes, it is in step with the switchboard.
-/

namespace Xatmi
namespace Library

open Switchboard

variable {whole : Bytes} {c : ClientId} {σ τ : State} {events : List Event}
  {session before after : Session}

/-- A library call of client `c` that is answered to its end. -/
inductive Exchange (whole : Bytes) (c : ClientId) (σ : State) (events : List Event) (τ : State)
    (before after : Session) : Prop
  | tpadvertise {name : Bytes} {func : BitVec 64} {result : BitVec 32}
      (full : name.length = XATMI_SERVICE_NAME_LENGTH) (nonnull : func ≠ 0)
      (called : Called whole c σ events τ (tpadvertise (some name) func) before result after)
  | tpunadvertise {name : Bytes} {result : BitVec 32}
      (full : name.length = XATMI_SERVICE_NAME_LENGTH)
      (called : Called whole c σ events τ (tpunadvertise (some name)) before result after)
  | tpacall {svc : Bytes} {data : Option Bytes} {n : Nat} {flags : BitVec 64} {result : BitVec 32}
      (full : XATMI_SERVICE_NAME_LENGTH ≤ svc.length) (short : n < 2 ^ 31)
      (enough : n ≤ (data.getD []).length)
      (called : Called whole c σ events τ (tpacall (some svc) data (BitVec.ofNat 64 n) flags) before
        result after)
  | tpgetrply {call : Getrply} {flags : BitVec 64} {returned : BitVec 32 × Option Getrply}
      (asks : call.len ≠ 0) (buffer : ∃ buffer, call.data = some buffer)
      (succeeds : ∀ frame, τ.sent c = σ.sent c ++ frame → ¬IsFailure frame)
      (called : Called whole c σ events τ (tpgetrply (some call) flags) before returned after)
  | fetchService {svcinfo : TPSVCINFO} {fetched : TPSVCINFO × Option (BitVec 64)} (free : σ.Free c)
      (called : Called whole c σ events τ (fetchService svcinfo) before fetched after)
  | tpreturn {t : TranId} {tr : Transaction} {rval : BitVec 32} {rcode flags : BitVec 64}
      {data : Option Bytes} {n : Nat} {result : Bool} (executes : σ.Executes c t tr)
      (short : n < 2 ^ 31) (enough : n ≤ (data.getD []).length)
      (called : Called whole c σ events τ
        (tpreturn true rval rcode data (BitVec.ofNat 64 n) flags) before result after)
  | fellOut {t : TranId} {tr : Transaction} (executes : σ.Executes c t tr)
      (called : Called whole c σ events τ fellOut before () after)

theorem Exchange.ends (exchange : Exchange whole c σ events τ before after) :
    run σ events = .ok τ ∧ τ.Reading c .command 1 [] := by
  cases exchange with
  | tpadvertise _ _ called => exact ⟨called.execution, called.ends⟩
  | tpunadvertise _ called => exact ⟨called.execution, called.ends⟩
  | tpacall _ _ _ called => exact ⟨called.execution, called.ends⟩
  | tpgetrply _ _ _ called => exact ⟨called.execution, called.ends⟩
  | fetchService _ called => exact ⟨called.execution, called.ends⟩
  | tpreturn _ _ _ called => exact ⟨called.execution, called.ends⟩
  | fellOut _ called => exact ⟨called.execution, called.ends⟩

/-- One call keeps the process in step. -/
theorem Exchange.inStep (exchange : Exchange whole c σ events τ before after)
    (inStep : InStep whole c σ before) (reach : Reachable PicksNew σ)
    (meets : Meets PicksNew σ events) : InStep whole c τ after := by
  have any : Reachable anyStep σ := reach.mono fun _ _ _ => trivial
  cases exchange with
  | tpadvertise full nonnull called =>
      obtain ⟨_, _, inStep'⟩ := called.tpadvertise inStep any full nonnull
      exact inStep'
  | tpunadvertise full called =>
      obtain ⟨_, _, inStep'⟩ := called.tpunadvertise inStep any full
      exact inStep'
  | tpacall full short enough called =>
      obtain ⟨inStep', _⟩ := called.tpacall inStep any full short enough
      exact inStep'
  | tpgetrply asks buffer succeeds called =>
      exact (called.inStep_iff inStep reach meets asks buffer).mpr succeeds
  | @fetchService svcinfo _ free called =>
      have sends := called.sends (fetchService_output called.writable svcinfo).1
      have ready : σ.AtCommand c := ⟨called.starts, free⟩
      obtain ⟨first, e, tail, ρ, ρ', a, t, frame, rfl, ran, done, _, given, _⟩ :=
        ready.given any called.execution called.ends sends
      obtain ⟨_, _, _, _, _, _, _, _, inStep'⟩ := called.fetches inStep any ran done given
      exact inStep'
  | tpreturn executes short enough called =>
      exact (called.tpreturn reach meets executes short enough).1 inStep
  | fellOut executes called =>
      have writes := fellOut_run called.writable
      exact (called.returns (by rw [writes]) reach meets executes rfl (by decide)).1 inStep

/-- What a process can have done since its connection was accepted: made calls, and waited while
others were served. -/
inductive Process (whole : Bytes) (c : ClientId) : State → Session → Prop
  | opens {σ : State} {session : Session} : Reachable PicksNew σ → σ.Reading c .command 1 [] →
      σ.sent c = [] → session.input = whole → Process whole c σ session
  | waits {σ τ : State} {events : List Event} {before after : Session} :
      Process whole c σ before → Meets PicksNew σ events → run σ events = .ok τ →
      stream c σ events = [] → c ∈ τ.clients → after.input = before.input → Process whole c τ after
  | calls {σ τ : State} {events : List Event} {before after : Session} :
      Process whole c σ before → Meets PicksNew σ events →
      Exchange whole c σ events τ before after → Process whole c τ after

namespace Process

theorem reading (process : Process whole c σ session) :
    Reachable PicksNew σ ∧ σ.Reading c .command 1 [] := by
  induction process with
  | opens reach reading _ _ => exact ⟨reach, reading⟩
  | waits _ meets execution silent connected _ ih =>
      obtain ⟨reach, reading⟩ := ih
      have any : Reachable anyStep _ := reach.mono fun _ _ _ => trivial
      obtain ⟨reading', _, _⟩ := reading.quiet (motive := fun _ => True) any (by decide) execution
        silent connected trivial fun _ _ _ _ _ _ _ _ => id
      exact ⟨reach.meets meets execution, reading'⟩
  | calls _ meets exchange ih =>
      obtain ⟨execution, reading⟩ := exchange.ends
      exact ⟨ih.1.meets meets execution, reading⟩

/-- A process that collects no reply to a failed transaction is in step all the time. -/
theorem inStep (process : Process whole c σ session) : InStep whole c σ session := by
  induction process with
  | opens _ _ opened input => rw [InStep, opened, input, List.nil_append]
  | waits before _ execution silent connected same ih =>
      obtain ⟨reach, reading⟩ := before.reading
      have any : Reachable anyStep _ := reach.mono fun _ _ _ => trivial
      rw [InStep, reading.listens.quiet any execution silent connected, same]
      exact ih
  | calls before meets exchange ih => exact exchange.inStep ih before.reading.1 meets

end Process

end Library
end Xatmi
