import Xatmi.Switchboard.Run

/-!
# Conversations with the switchboard

The events in which peers send well-formed messages, for writing down runs. A message arrives in the
pieces the switchboard asks for: its type, its fixed part, and its data.
-/

namespace Xatmi
namespace Switchboard
namespace Scenario

/-- A new connection. -/
def connect : Event :=
  ⟨.plain 0 0, .connect⟩

/-- Bytes from client `c`; a transaction created meanwhile gets descriptor `cd`. -/
def receive (c : ClientId) (bytes : Bytes) (cd : BitVec 16) : Event :=
  ⟨.plain 0 cd, .ready c (some bytes)⟩

/-- End of file from client `c`. -/
def hangUp (c : ClientId) : Event :=
  receive c [] 0

/-- The service name with the one letter `letter`. -/
def svcname (letter : Byte) : Bytes :=
  letter :: List.replicate (XATMI_SERVICE_NAME_LENGTH - 1) 0

/-- A message with a fixed part. -/
def message (c : ClientId) (kind : Byte) (body : Bytes) (cd : BitVec 16) : List Event :=
  [receive c [kind] 0, receive c body cd]

/-- `TPTADVT`. -/
def advertise (c : ClientId) (letter : Byte) : List Event :=
  message c TPTADVT (svcname letter ++ longBytes 0) 0

/-- `TPTUADV`. -/
def unadvertise (c : ClientId) (letter : Byte) : List Event :=
  message c TPTUADV (svcname letter) 0

/-- `TPTCALL` announcing `len` bytes of data; the transaction gets descriptor `cd`. -/
def call (c : ClientId) (letter : Byte) (len : Nat) (cd : BitVec 16) : List Event :=
  message c TPTCALL (svcname letter ++ longBytes (BitVec.ofNat 64 len) ++ longBytes 0) cd

/-- `TPTWORK`. -/
def work (c : ClientId) : List Event :=
  [receive c [TPTWORK] 0]

/-- `TPTGRPLY`. -/
def getrply (c : ClientId) (cd : BitVec 16) (flags : BitVec 64) : List Event :=
  message c TPTGRPLY (shortBytes cd ++ longBytes flags) 0

/-- `TPTRETN` announcing `len` bytes of data. -/
def giveBack (c : ClientId) (rval : Byte) (len : BitVec 64) : List Event :=
  message c TPTRETN ([rval] ++ longBytes 0 ++ longBytes len) 0

/-- What is left of a run, if it does not die. -/
def outcome {α : Type} (events : List Event) (view : State → α) : Option α :=
  (run .start events).toOption.map view

theorem outcome_eq_some_iff {α : Type} {events : List Event} {view : State → α} {seen : α} :
    outcome events view = some seen ↔ ∃ σ, run .start events = .ok σ ∧ view σ = seen := by
  unfold outcome
  cases run .start events <;> simp [Except.toOption]

/-- What a run shows is true of a reachable memory. -/
theorem reachable_of_outcome {α : Type} (events : List Event) (view : State → α) (seen : α)
    (shows : outcome events view = some seen) :
    ∃ σ, run .start events = .ok σ ∧ Reachable anyStep σ ∧ view σ = seen := by
  obtain ⟨σ, execution, same⟩ := outcome_eq_some_iff.mp shows
  exact ⟨σ, execution, Reachable.start.run execution, same⟩

/-- The same for a run whose steps all meet a condition. -/
theorem reachable_of_permitted {α : Type} {allowed : State → Event → Prop}
    [∀ σ e, Decidable (allowed σ e)] (events : List Event) (view : State → α) (seen : α)
    (steps : permitted allowed .start events = true) (shows : outcome events view = some seen) :
    ∃ σ, Reachable allowed σ ∧ view σ = seen := by
  obtain ⟨σ, execution, same⟩ := outcome_eq_some_iff.mp shows
  obtain ⟨final, execution', reach⟩ := Reachable.start.of_permitted steps
  obtain rfl := Except.ok.inj (execution.symm.trans execution')
  exact ⟨σ, reach, same⟩

/-- What a memory shows of what comes next. -/
theorem ok_of_any {α β : Type} {result : Except α β} {test : β → Bool}
    (shown : result.toOption.any test = true) :
    ∃ value, result = .ok value ∧ test value = true := by
  cases result with
  | error f => cases shown
  | ok value => exact ⟨value, rfl, shown⟩

theorem step_of_any {σ : State} {e : Event} {test : State → Bool}
    (shown : (step σ e).toOption.any test = true) : ∃ τ, step σ e = .ok τ ∧ test τ = true :=
  ok_of_any shown

/-- How a call dies, if it does. -/
def fault {α : Type} : Except Fault α → Option Fault
  | .error f => some f
  | .ok _ => none

theorem fault_eq_some_iff {α : Type} {result : Except Fault α} {f : Fault} :
    fault result = some f ↔ result = .error f := by
  cases result <;> simp [fault]

/-- How the switchboard dies of its next event, if it does. -/
def death (σ : State) (e : Event) : Option Fault :=
  fault (step σ e)

theorem death_eq_some_iff {σ : State} {e : Event} {f : Fault} :
    death σ e = some f ↔ step σ e = .error f :=
  fault_eq_some_iff

end Scenario
end Switchboard
end Xatmi
