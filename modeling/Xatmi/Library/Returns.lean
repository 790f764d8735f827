import Xatmi.Library.Process

/-!
# From `tpreturn` to `tpgetrply`

A result passes through the library of the worker, the switchboard, which sends it to a client that
waits and keeps it for one that does not, and the library of the client. What `tpgetrply` returns is
what `tpreturn` was given, if the client is in step.
-/

namespace Xatmi
namespace Library

open Switchboard

variable {whole : Bytes} {σ τ : State} {w : ClientId} {events : List Event} {before after : Session}
  {t : TranId} {tr : Transaction} {rval : BitVec 32} {rcode flags : BitVec 64} {data : Option Bytes}
  {n : Nat} {result : Bool}

open Scenario

/-- Worker 0 returns two bytes. -/
def returning : List Event :=
  [receive 0 [TPTRETN] 0, receive 0 (returnMessage TPSUCCESS 5 2) 0, receive 0 [7, 8] 0]

/-- Client 2 asks for the reply to its call. -/
def requesting : Event :=
  receive 2 [TPTGRPLY] 0

/-- The request of client 2. -/
def collecting : Event :=
  receive 2 (shortBytes 9 ++ longBytes 0) 0

/-- The arguments of its `tpgetrply`. -/
def collected : Getrply :=
  { cd := 9, data := some [], len := 1 }

/-- What `tpacall` of client 2 finds and leaves, when `answer` is sent after the descriptor. -/
def unanswered (answer : Bytes) : Session :=
  { input := 0 :: shortBytes 9 ++ answer }

def granted (answer : Bytes) : Session :=
  { input := answer, output := TPTCALL :: callMessage (svcname 65) 0 0 }

/-- What client 2 is sent for the result. -/
def successFrame : Bytes :=
  [2, 9, 0] ++ longBytes 5 ++ longBytes 2 ++ [7, 8]

end Library
end Xatmi
