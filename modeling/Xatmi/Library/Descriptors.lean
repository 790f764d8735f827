import Xatmi.Library.Calls
import Xatmi.Switchboard.Awaiting
import Xatmi.Switchboard.Origin

/-!
# Numbers between the library and the switchboard

The library and the switchboard each have their own functions to write numbers, and share those that
read them. A descriptor goes from the switchboard to the library as an unsigned short, is kept there
as an `int`, and comes back as an unsigned short that is compared with a signed one.
-/

namespace Xatmi
namespace Library

open Switchboard Program

variable {σ τ : State} {e : Event} {c : ClientId}

/-! ## Integers -/

/-- Both encoders emit `bytes` for a number, whatever has been written before. -/
structure Emitted (library : Lib (BitVec 32)) (switchboard : ClientId → M PUnit) (bytes : Bytes) :
    Prop where
  library : ∀ session : Session, session.writable = true →
    library session = (TX_OK, { session with output := session.output ++ bytes })
  switchboard : ∀ σ c x, σ.client c = some x → switchboard c σ = .ok (⟨⟩, σ.write c bytes)

theorem emitted_long (v : BitVec 64) : Emitted (txWritel v) (fun c => svrwritel c v)
    (longBytes v) :=
  ⟨fun _ writable => txWritel_run writable v, fun _ _ x live => svrwritel_ok_iff.mpr
    ⟨⟨x, live⟩, rfl⟩⟩

theorem emitted_short (v : BitVec 16) : Emitted (txWrites v) (fun c => svrwrites c v)
    (shortBytes v) :=
  ⟨fun _ writable => txWrites_run writable v, fun _ _ x live => svrwrites_ok_iff.mpr
    ⟨⟨x, live⟩, rfl⟩⟩

/-! ## Descriptors -/

/-- The step took a transaction of client `c` with descriptor `cd` for the one asked for: its reply
has been sent, or the client is told that there is none yet, or waits for it. -/
def Finds (σ τ : State) (c : ClientId) (cd : BitVec 16) : Prop :=
  ∃ x t tr, σ.client c = some x ∧ t ∈ x.outstanding ∧ σ.tran t = some tr ∧ tr.cd = cd ∧
    ((∃ data, τ.sent c = σ.sent c ++ replyFrame tr data) ∨
      τ.sent c = σ.sent c ++ errorFrame TPEBLOCK ∨
      τ.sent c = σ.sent c ∧ ∃ y, τ.client c = some y ∧ y.wait4 = some (.tran t))

theorem finds_of_getrply {request : Bytes} {x : Client} {t : TranId} {tr : Transaction}
    (inv : Inv ⟨{}, σ⟩) (received : Received σ e c .svrgetrply request) (one : ¬AsksAny request)
    (live : σ.client c = some x) (member : t ∈ x.outstanding) (found : σ.tran t = some tr)
    (same : tr.cd = toshort request) (done : step σ e = .ok τ) : Finds σ τ c (toshort request) := by
  obtain ⟨y, b, u, live', _, _, called⟩ := runHandler_of_step received done
  obtain rfl := Option.some.inj (live.symm.trans live')
  have one' : tolong (request.drop IOSHORT) &&& TPGETANY = 0 := not_not.mp one
  obtain ⟨contents, y, room, begun, outcome⟩ := svrgetrply_ok called
  have full : (σ.begin c .svrgetrply b request).buf b = some request := if_pos rfl
  obtain rfl := Option.some.inj (full.symm.trans room)
  obtain ⟨z, live', rfl⟩ := change_eq_some_iff.mp begun
  obtain rfl := Option.some.inj (live.symm.trans live')
  rw [if_pos rfl] at outcome
  simp only [one', ne_eq, not_true_eq_false, ↓reduceIte, not_false_eq_true, true_and, false_and,
    false_or] at outcome
  rcases outcome with ⟨t', tr', data, _, _, hit, deletable, _, _, _, rfl⟩ | ⟨missing, outcome⟩
  · obtain ⟨member', tr'', found', same'⟩ := findCd_elim hit
    obtain rfl := Option.some.inj (found'.symm.trans deletable.live)
    have mine : t' ∈ x.outstanding := List.mem_append_right _ member'
    obtain rfl : tr''.client = c := inv.own.owner_eq live mine found'
    exact ⟨x, t', tr'', live, mine, found', same', .inl ⟨data, if_pos rfl⟩⟩
  · have waiting : t ∈ x.requests := by
      refine (List.mem_append.mp member).resolve_right fun replied => ?_
      exact findCd_eq_none_iff.mp missing t replied ⟨tr, found, same⟩
    rcases outcome with ⟨errno, ⟨_, nothing⟩ | rfl, _, rfl⟩ | ⟨w, ⟨t', rfl, _, hit⟩, rfl⟩
    · exact absurd ⟨tr, found, same⟩ (findCd_eq_none_iff.mp nothing t waiting)
    · exact ⟨x, t, tr, live, member, found, same, .inr (.inl (if_pos rfl))⟩
    · obtain ⟨member', tr', found', same'⟩ := findCd_elim hit
      have blocked : ∃ y,
          (((σ.begin c .svrgetrply b request).freeBuf b).block c (.tran t')).client c = some y ∧
            y.wait4 = some (.tran t') :=
        ⟨_, change_eq_some_iff.mpr ⟨_, begun, (if_pos rfl).symm⟩, rfl⟩
      exact ⟨x, t', tr', live, List.mem_append_left _ member', found', same',
        .inr (.inr ⟨rfl, blocked⟩)⟩

theorem descriptor_ne (cd : BitVec 16) : cd.setWidth 32 ≠ (-1 : BitVec 32) := by
  intro same
  have value := congrArg BitVec.toNat same
  have small := cd.isLt
  have minus : (-1 : BitVec 32).toNat = 2 ^ 32 - 1 := by decide
  rw [minus, BitVec.toNat_setWidth] at value
  omega

/-- What the switchboard has written to client `c` meanwhile. -/
def answerTo (σ τ : State) (c : ClientId) : Bytes :=
  (τ.sent c).drop (σ.sent c).length

theorem answerTo_eq {answer : Bytes} (sent : τ.sent c = σ.sent c ++ answer) :
    answerTo σ τ c = answer := by
  rw [answerTo, sent, List.drop_left]

/-- The fixed part of a `TPTCALL` message. -/
def callMessage (svc : Bytes) (len flags : BitVec 64) : Bytes :=
  svc ++ longBytes len ++ longBytes flags

section Message

variable {svc : Bytes} {len flags : BitVec 64}

theorem length_callMessage (full : svc.length = XATMI_SERVICE_NAME_LENGTH) :
    (callMessage svc len flags).length = XATMI_SERVICE_NAME_LENGTH + IOLONG + IOLONG := by
  rw [callMessage, List.length_append, List.length_append, full, length_longBytes, length_longBytes]

theorem take_callMessage (full : svc.length = XATMI_SERVICE_NAME_LENGTH) :
    (callMessage svc len flags).take XATMI_SERVICE_NAME_LENGTH = svc := by
  rw [callMessage, List.append_assoc, ← full, List.take_left]

theorem drop_callMessage (full : svc.length = XATMI_SERVICE_NAME_LENGTH) :
    (callMessage svc len flags).drop XATMI_SERVICE_NAME_LENGTH = longBytes len ++
      longBytes flags := by
  rw [callMessage, List.append_assoc, ← full, List.drop_left]

end Message

/-- The switchboard refuses a call, and `tpacall` returns -1; or it makes a transaction, and
`tpacall` returns the descriptor, which is not -1 and is found by every later `TPTGRPLY` for it as
long as the transaction exists. -/
theorem descriptor_of_call {svc contents : Bytes} {len flags : BitVec 64} {session : Session}
    {more : Bytes} (reach : Reachable anyStep σ) (full : svc.length = XATMI_SERVICE_NAME_LENGTH)
    (received : Received σ e c .svracall (callMessage svc len flags)) (done : step σ e = .ok τ)
    (writable : session.writable = true) (available : session.input = answerTo σ τ c ++ more) :
    (tpacall (some svc) (some contents) len flags session).1 = -1 ∧
        (tpacall (some svc) (some contents) len flags session).2.tperrno =
          BitVec.ofNat 32 TPENOENT ∨
      ∃ t tr, σ.tran t = none ∧ τ.tran t = some tr ∧ tr.client = c ∧
        (tpacall (some svc) (some contents) len flags session).1 = tr.cd.setWidth 32 ∧
        (tpacall (some svc) (some contents) len flags session).1 ≠ -1 ∧
        ∀ events ρ tr' e' ρ' flags', run τ events = .ok ρ → ρ.tran t = some tr' →
          wire flags' &&& TPGETANY = 0 →
          Received ρ e' c .svrgetrply (shortBytes
            ((tpacall (some svc) (some contents) len flags session).1.setWidth 16) ++
            longBytes flags') →
          step ρ e' = .ok ρ' → Finds ρ ρ' c tr.cd := by
  have inv := inv_of_reachable reach
  rw [tpacall_run writable]
  rcases step_call inv received done with ⟨_, _, refused⟩ |
    ⟨s, t, _, n, _, length, rfl, new, ⟨tr, found, place⟩, accepted, _⟩
  · rw [answerTo_eq refused] at available
    have available : (session.calling svc len flags).input =
        -1 :: shortBytes (BitVec.ofNat 16 TPENOENT) ++ more :=
      available
    rw [sendData_refused (by decide) available]
    exact .inl ⟨rfl, rfl⟩
  · have fits : 0 ≤ (len.setWidth 32).toInt := by
      rw [drop_callMessage full, tolong_longBytes_append, BitVec.toInt_signExtend_of_le
        (by decide)] at length
      omega
    have cd : tr.cd = e.env.cd := cd_of_place place
    rw [answerTo_eq accepted, ← cd] at available
    have available : (session.calling svc len flags).input = 0 :: shortBytes tr.cd ++ more :=
      available
    have writable : (session.calling svc len flags).writable = true := writable
    have writes : writeData (some contents) len =
        txWrite (contents.take (len.setWidth 32).toInt.toNat) :=
      if_neg (Int.not_lt.mpr fits)
    rw [sendData_accepted writable writes available]
    have gone := inv.waits.fresh_tran new
    refine .inr ⟨t, tr, gone, found, client_of_place place, rfl, descriptor_ne tr.cd, ?_⟩
    intro events ρ tr' e' ρ' flags' execution current one asked answered
    have reachτ : Reachable anyStep τ := .next reach trivial done
    have reachρ := reachτ.run execution
    have old := ((inv_of_reachable reachτ).waits.old (.tran t) (Option.isSome_of_eq_some found)).1
    obtain ⟨tr₀, found₀, place'⟩ := place_of_run reachτ execution old current
    obtain rfl := Option.some.inj (found.symm.trans found₀)
    have narrow : (tr.cd.setWidth 32).setWidth 16 = tr.cd := by
      rw [BitVec.setWidth_setWidth_of_le _ (by decide), BitVec.setWidth_eq]
    rw [narrow] at asked
    have name : toshort (shortBytes tr.cd ++ longBytes flags') = tr.cd :=
      toshort_shortBytes_append _ _
    have single : ¬AsksAny (shortBytes tr.cd ++ longBytes flags') := by
      have rest : (shortBytes tr.cd ++ longBytes flags').drop IOSHORT = longBytes flags' := rfl
      rw [AsksAny, rest, tolong_longBytes]
      exact not_not.mpr one
    obtain ⟨x, live, member⟩ := (inv_of_reachable reachρ).own.owned t tr' current
    have owner : tr'.client = c := (client_of_place place').symm.trans (client_of_place place)
    have finds := finds_of_getrply (inv_of_reachable reachρ) asked single (owner ▸ live)
      member current ((cd_of_place place').symm.trans name.symm) answered
    rwa [name] at finds

/-- The encoders of the library and of the switchboard emit the same bytes. The decoders invert
them, for longs exactly on the range of an `int`; a descriptor that `tpacall` returns is not -1 and
is found again. -/
theorem codecs_agree :
    (∀ v : BitVec 64, ∃ bytes, Emitted (txWritel v) (fun c => svrwritel c v) bytes ∧
      bytes.length = 4 ∧ tolong bytes = (BitVec.ofNat 32 (v.toNat % 2 ^ 32)).signExtend 64 ∧
      ((tolong bytes).toInt = v.toInt ↔ -2 ^ 31 ≤ v.toInt ∧ v.toInt < 2 ^ 31)) ∧
    (∀ v : BitVec 16, ∃ bytes, Emitted (txWrites v) (fun c => svrwrites c v) bytes ∧
      bytes.length = 2 ∧ ((toshort bytes).toNat : Int) = v.toInt % 2 ^ 16 ∧
      (toshort bytes).toInt = v.toInt) ∧
    ∀ σ e c τ svc contents len flags more (session : Session), Reachable anyStep σ →
      svc.length = XATMI_SERVICE_NAME_LENGTH →
      Received σ e c .svracall (callMessage svc len flags) →
      step σ e = .ok τ → session.writable = true → session.input = answerTo σ τ c ++ more →
      let cd := (tpacall (some svc) (some contents) len flags session).1
      cd = -1 ∧
          (tpacall (some svc) (some contents) len flags session).2.tperrno =
            BitVec.ofNat 32 TPENOENT ∨
        ∃ t tr, σ.tran t = none ∧ τ.tran t = some tr ∧ tr.client = c ∧ cd = tr.cd.setWidth 32 ∧
          cd ≠ -1 ∧
          ∀ events ρ tr' e' ρ' flags', run τ events = .ok ρ → ρ.tran t = some tr' →
            wire flags' &&& TPGETANY = 0 →
            Received ρ e' c .svrgetrply (shortBytes (cd.setWidth 16) ++ longBytes flags') →
            step ρ e' = .ok ρ' → Finds ρ ρ' c tr.cd := by
  refine ⟨fun v => ⟨longBytes v, emitted_long v, rfl, ?_, ?_⟩,
    fun v => ⟨shortBytes v, emitted_short v, rfl, ?_, ?_⟩, ?_⟩
  · rw [tolong_longBytes, wire]
    congr 1
    apply BitVec.eq_of_toNat_eq
    simp
  · rw [tolong_longBytes, BitVec.toInt_inj]
    exact wire_eq_self_iff v
  · have := v.isLt
    rw [toshort_shortBytes, BitVec.toInt_eq_toNat_bmod, Int.bmod_def]
    split <;> omega
  · rw [toshort_shortBytes]
  · intro σ e c τ svc contents len flags more session reach full received done writable available
    exact descriptor_of_call reach full received done writable available

open Scenario in
/-- Client 2 calls `A` and gets the descriptor 40000, which the switchboard keeps as a negative
short, and asks for the reply at once. -/
theorem codecs_agree_negative : ∃ (session : Session) (ρ ρ' : State),
    (tpacall (some (svcname 65)) (some []) 0 0 session).1 = 40000 ∧ (40000 : BitVec 16).toInt < 0 ∧
    step ρ (receive 2 (shortBytes 40000 ++ longBytes 0) 0) = .ok ρ' ∧ Finds ρ ρ' 2 40000 := by
  obtain ⟨σ, _, reach, seen⟩ :=
    reachable_of_outcome ([connect, connect] ++ advertise 0 65 ++ [receive 2 [TPTCALL] 0])
      (fun σ => decide (received σ (receive 2 (callMessage (svcname 65) 0 0) 40000) =
          some (2, .svracall, callMessage (svcname 65) 0 0)) &&
        (step σ (receive 2 (callMessage (svcname 65) 0 0) 40000)).toOption.any fun (τ : State) =>
          decide (answerTo σ τ 2 = 0 :: shortBytes 40000 ∧ τ.transactions = [10] ∧
            σ.transactions = []) && (run τ [receive 2 [TPTGRPLY] 0]).toOption.any fun (ρ : State) =>
              decide (received ρ (receive 2 (shortBytes 40000 ++ longBytes 0) 0) =
                some (2, .svrgetrply, shortBytes 40000 ++ longBytes 0) ∧ ρ.transactions = [10]) &&
              (step ρ (receive 2 (shortBytes 40000 ++ longBytes 0) 0)).toOption.any
                fun (_ : State) => true) true
      (by decide +kernel)
  obtain ⟨asked, seen⟩ := (Bool.and_eq_true _ _).mp seen
  obtain ⟨τ, called, seen⟩ := ok_of_any seen
  obtain ⟨answered, seen⟩ := (Bool.and_eq_true _ _).mp seen
  obtain ⟨ρ, execution, seen⟩ := ok_of_any seen
  obtain ⟨asked', seen⟩ := (Bool.and_eq_true _ _).mp seen
  obtain ⟨ρ', done, _⟩ := ok_of_any seen
  have asked := of_decide_eq_true asked
  obtain ⟨answer, one, _⟩ := of_decide_eq_true answered
  obtain ⟨asked', one'⟩ := of_decide_eq_true asked'
  let session : Session := { input := 0 :: shortBytes 40000 }
  have returned : (tpacall (some (svcname 65)) (some []) 0 0 session).1 = 40000 := by decide +kernel
  refine ⟨session, ρ, ρ', returned, by decide, done, ?_⟩
  have available : session.input = answerTo σ τ 2 ++ [] := by rw [answer, List.append_nil]
  have outcome :=
    codecs_agree.2.2 σ _ 2 τ (svcname 65) [] 0 0 [] session reach rfl asked called rfl available
  simp only [returned] at outcome
  rcases outcome with ⟨minus, _⟩ | ⟨t, tr, _, found, _, cd, _, finds⟩
  · cases minus
  · have reachτ : Reachable anyStep τ := .next reach trivial called
    have here := ((inv_of_reachable reachτ).own.mem_transactions t).mpr ⟨tr, found⟩
    rw [one, List.mem_singleton] at here
    subst here
    have there := ((inv_of_reachable (reachτ.run execution)).own.mem_transactions 10).mp
      (by rw [one']; simp)
    obtain ⟨tr', current⟩ := there
    have same : tr.cd = 40000 := by
      have narrow := congrArg (BitVec.setWidth 16) cd
      rw [BitVec.setWidth_setWidth_of_le _ (by decide), BitVec.setWidth_eq] at narrow
      exact narrow.symm
    rw [← same]
    exact finds _ ρ tr' _ ρ' 0 execution current (by decide) asked' done

end Library
end Xatmi
