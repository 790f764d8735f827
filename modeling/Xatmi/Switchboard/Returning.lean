import Xatmi.Switchboard.Progress
import Xatmi.Switchboard.Scenario

/-!
# The header of a result

`svrreturn` resizes the data of the transaction to the length in the header before it waits for the
bytes. A length that decodes to a negative long is refused by `tprealloc`, which also returns null
when there is no memory; the null pointer goes over the only reference to the old data.
-/

namespace Xatmi
namespace Switchboard

open Program

variable {σ : State} {e : Event}

/-- The length field of the header. -/
def returnLength (header : Bytes) : Int :=
  (tolong (header.drop (1 + IOLONG))).toInt

/-- The memory in which `svrreturn` calls `svriowait`. -/
def State.returned (σ : State) (t : TranId) (tr : Transaction) (b : BufId) (header old : Bytes) :
    State :=
  (σ.setReturn t tr.data ((header.getD 0 0).signExtend 32) (tolong (header.drop 1))
    (resize old (returnLength header).toNat)).freeBuf b

section Header

variable {c : ClientId} {b : BufId} {t : TranId} {x : Client} {tr : Transaction}
  {header old : Bytes}

/-- The memory in which `svrreturn` finds a null pointer in `t->data`. -/
def State.refused (σ : State) (t : TranId) (b : BufId) (header : Bytes) : State :=
  (σ.mapTran t fun tr =>
    { tr with rval := (header.getD 0 0).signExtend 32, rcode := tolong (header.drop 1) }).freeBuf b

theorem svrreturnData_run (granted : Bool) (held : σ.buf b = some header)
    (live : σ.client c = some x) (executing : x.wait4 = some (.tran t))
    (current : σ.tran t = some tr) (data : σ.buf tr.data = some old) (apart : tr.data ≠ b)
    (fresh : b < σ.next) :
    svrreturnData granted c b σ =
      .ok (if 0 ≤ returnLength header ∧ granted = true then (some σ.next,
        σ.returned t tr b header old) else (none, σ.refused t b header)) := by
  let result : Transaction → Transaction := fun tr =>
    { tr with rval := (header.getD 0 0).signExtend 32, rcode := tolong (header.drop 1) }
  have noted : (σ.mapTran t result).tran t = some (result tr) :=
    change_eq_some_iff.mpr ⟨tr, current, (if_pos rfl).symm⟩
  unfold svrreturnData
  rw [bind_of_ok (readBuf_ok_iff.mpr ⟨held, rfl⟩), bind_of_ok (readClient_ok_iff.mpr ⟨live, rfl⟩)]
  simp only [executing]
  rw [seq_of_ok (modifyTran_ok_iff.mpr ⟨⟨tr, current⟩, rfl⟩),
    bind_of_ok (readTran_ok_iff.mpr ⟨noted, rfl⟩)]
  change (tpreallocWith granted tr.data (returnLength header) >>= _) _ = _
  by_cases moves : 0 ≤ returnLength header ∧ granted = true
  · have resized : tpreallocWith granted tr.data (returnLength header) (σ.mapTran t result) =
        .ok (some σ.next, ((σ.mapTran t result).freeBuf tr.data).allocBuf
          (resize old (returnLength header).toNat)) :=
      tpreallocWith_ok_iff.mpr ⟨old, data, .inr ⟨moves.1, moves.2, rfl, rfl⟩⟩
    have stored : (((σ.mapTran t result).freeBuf tr.data).allocBuf
        (resize old (returnLength header).toNat)).tran t = some (result tr) := noted
    have kept : (σ.setReturn t tr.data ((header.getD 0 0).signExtend 32) (tolong (header.drop 1))
        (resize old (returnLength header).toNat)).buf b = some header := by
      simp [State.setReturn, State.mapTran, State.allocBuf, State.freeBuf, put, fresh.ne,
        apart.symm, held]
    rw [bind_of_ok resized, if_pos moves]
    simp only []
    rw [seq_of_ok (modifyTran_ok_iff.mpr ⟨⟨_, stored⟩, rfl⟩)]
    exact seq_of_ok (tpfree_ok_iff.mpr ⟨⟨header, kept⟩, rfl⟩)
  · have refused : tpreallocWith granted tr.data (returnLength header) (σ.mapTran t result) =
        .ok (none, σ.mapTran t result) := by
      refine tpreallocWith_ok_iff.mpr ⟨old, data, .inl ⟨?_, rfl, rfl⟩⟩
      simpa only [not_and_or, Int.not_le, Bool.not_eq_true] using moves
    rw [bind_of_ok refused, if_neg moves]
    exact seq_of_ok (tpfree_ok_iff.mpr ⟨⟨header, held⟩, rfl⟩)

theorem svrreturn_run (held : σ.buf b = some header) (live : σ.client c = some x)
    (executing : x.wait4 = some (.tran t)) (current : σ.tran t = some tr)
    (data : σ.buf tr.data = some old) (apart : tr.data ≠ b) (fresh : b < σ.next)
    (fits : 0 ≤ returnLength header) :
    svrreturn c b σ = svriowait c σ.next .part2 part2 (σ.returned t tr b header old) := by
  have stores := svrreturnData_run true held live executing current data apart fresh
  rw [if_pos ⟨fits, rfl⟩] at stores
  exact bind_of_ok stores

/-- The transaction owns the resized data; of the buffers only the header and the old data are
gone. -/
theorem returned_tran (current : σ.tran t = some tr) :
    (σ.returned t tr b header old).tran t = some
      { tr with
        rval := (header.getD 0 0).signExtend 32, rcode := tolong (header.drop 1),
        data := σ.next } := by
  change (State.setReturn ..).tran t = _
  rw [State.setReturn_tran]
  exact change_eq_some_iff.mpr ⟨tr, current, (if_pos rfl).symm⟩

theorem returned_buf (fresh : b < σ.next) (k : BufId) :
    (σ.returned t tr b header old).buf k =
      if k = σ.next then some (resize old (returnLength header).toNat)
      else if k = b ∨ k = tr.data then none else σ.buf k := by
  simp only [State.returned, State.setReturn, State.mapTran, State.allocBuf, State.freeBuf, put]
  grind

theorem refused_buf (apart : tr.data ≠ b) :
    (σ.refused t b header).buf tr.data = σ.buf tr.data :=
  if_neg apart

theorem start_of_svrreturn (inv : Inv ⟨{}, σ⟩) (received : Received σ e c .svrreturn header)
    (live : σ.client c = some x) (current : σ.tran t = some tr) :
    ∃ b old, x.input = some b ∧ b < σ.next ∧ tr.data ≠ b ∧ σ.buf tr.data = some old ∧
      (σ.begin c .svrreturn b header).buf tr.data = some old ∧
      (σ.begin c .svrreturn b header).client c =
        some { x with handler := none, input := none, used := 0 } ∧
      step σ e = (svrreturn c b (σ.begin c .svrreturn b header)).map Prod.snd := by
  obtain ⟨y, b, contents, live', into, reading, room, length, nonempty, called⟩ :=
    step_of_received received
  obtain rfl := Option.some.inj (live.symm.trans live')
  obtain ⟨old, data⟩ := inv.buffers.data t tr current
  have mine := (inv.buffers.reading c x b live ⟨into, .svrreturn, reading, rfl⟩).1
  have apart := mine.apart t tr current
  exact ⟨b, old, into, inv.buffers.old c x b live into, apart, data, (if_neg apart).trans data,
    change_eq_some_iff.mpr ⟨x, live, (if_pos rfl).symm⟩, called⟩

theorem step_of_svrreturn (inv : Inv ⟨{}, σ⟩) (received : Received σ e c .svrreturn header)
    (live : σ.client c = some x) (executing : x.wait4 = some (.tran t))
    (current : σ.tran t = some tr) (fits : 0 ≤ returnLength header) :
    ∃ b old, x.input = some b ∧ b < σ.next ∧ tr.data ≠ b ∧ σ.buf tr.data = some old ∧
      step σ e = (svriowait c σ.next .part2 part2
        ((σ.begin c .svrreturn b header).returned t tr b header old)).map Prod.snd := by
  obtain ⟨b, old, into, fresh, apart, data, data', begun, called⟩ :=
    start_of_svrreturn inv received live current
  have runs := svrreturn_run (σ := σ.begin c .svrreturn b header) (if_pos rfl) begun executing
    current data' apart fresh fits
  refine ⟨b, old, into, fresh, apart, data, ?_⟩
  rw [called]
  exact congrArg (Except.map Prod.snd) runs

end Header

/-- What `svrreturn` leaves in `t->data`, whatever the header and whether or not `realloc` finds
memory. It is a buffer exactly if the length is not negative and there is memory. Then the
transaction owns data of that length, which `svriowait` is called with; the bytes that fit are kept,
and of the buffers allocated before only the header and the old data are gone. Otherwise the old
data stays allocated without a reference to it, and the switchboard dies in the assertion of
`svriowait`. -/
theorem return_keeps_data {c : ClientId} {x : Client} {t : TranId} {tr : Transaction}
    {header : Bytes} (granted : Bool) (reach : Reachable anyStep σ)
    (received : Received σ e c .svrreturn header) (live : σ.client c = some x)
    (executing : x.wait4 = some (.tran t)) (current : σ.tran t = some tr) :
    ∃ b old stored μ, x.input = some b ∧ σ.buf tr.data = some old ∧
      svrreturnData granted c b (σ.begin c .svrreturn b header) = .ok (stored, μ) ∧
      (stored.isSome = true ↔ 0 ≤ returnLength header ∧ granted = true) ∧
      (∀ data, stored = some data →
        svrreturnWith granted c b (σ.begin c .svrreturn b header) =
          svriowait c data .part2 part2 μ ∧
        μ.tran t = some
          { tr with
            rval := (header.getD 0 0).signExtend 32, rcode := tolong (header.drop 1), data } ∧
        data = σ.next ∧
        ∀ k, μ.buf k = if k = data then some (resize old (returnLength header).toNat)
          else if k = b ∨ k = tr.data then none else σ.buf k) ∧
      (stored = none →
        svrreturnWith granted c b (σ.begin c .svrreturn b header) = .error .assertion ∧
        μ.buf tr.data = some old) ∧
      step σ e = (svrreturnWith true c b (σ.begin c .svrreturn b header)).map Prod.snd ∧
      ∀ τ, step σ e = .ok τ → ∀ tr', τ.tran t = some tr' → ∃ contents,
        τ.buf tr'.data = some contents := by
  have inv := inv_of_reachable reach
  obtain ⟨b, old, into, fresh, apart, data, data', begun, called⟩ :=
    start_of_svrreturn inv received live current
  have current' : (σ.begin c .svrreturn b header).tran t = some tr := current
  have fresh' : b < (σ.begin c .svrreturn b header).next := fresh
  have stores :=
    svrreturnData_run (σ := σ.begin c .svrreturn b header) granted (if_pos rfl) begun executing
      current' data' apart fresh'
  have later : ∀ τ, step σ e = .ok τ → ∀ tr', τ.tran t = some tr' →
      ∃ contents, τ.buf tr'.data = some contents := fun τ done tr' after =>
    (inv_of_reachable (.next reach trivial done)).buffers.data t tr' after
  by_cases moves : 0 ≤ returnLength header ∧ granted = true
  · rw [if_pos moves] at stores
    refine ⟨b, old, _, _, into, data, stores, iff_of_true rfl moves, ?_, ?_, called, later⟩
    · intro data same
      obtain rfl := Option.some.inj same
      refine ⟨bind_of_ok stores, returned_tran current', rfl, fun k => ?_⟩
      rw [returned_buf fresh']
      simp only [State.begin, State.observe, State.mapClient, put]
      grind
    · intro impossible
      cases impossible
  · rw [if_neg moves] at stores
    have lost : ¬(none : Option BufId).isSome = true := by simp
    refine ⟨b, old, _, _, into, data, stores, iff_of_false lost moves, ?_, ?_, called, later⟩
    · intro data impossible
      cases impossible
    · exact fun _ => ⟨bind_of_ok stores, (refused_buf apart).trans data'⟩

open Scenario in
/-- A worker that is about to return a transaction with five bytes of data. -/
def aboutToReturn : List Event :=
  [connect, connect] ++ advertise 0 65 ++ work 0 ++ call 2 65 5 9 ++
    [receive 2 [1, 2, 3, 4, 5] 0] ++ [receive 0 [TPTRETN] 0]

/-- The header of a result of `len` bytes. -/
def returnHeader (len : BitVec 64) : Bytes :=
  [2] ++ longBytes 0 ++ longBytes len

theorem about_to_return :
    ∃ σ x tr, Reachable anyStep σ ∧ σ.client 0 = some x ∧ x.wait4 = some (.tran 11) ∧
      σ.tran 11 = some tr ∧ σ.buf tr.data = some [1, 2, 3, 4, 5] ∧
      Received σ (Scenario.receive 0 (returnHeader 3) 0) 0 .svrreturn (returnHeader 3) ∧
      Received σ (Scenario.receive 0 (returnHeader (-1)) 0) 0 .svrreturn (returnHeader (-1)) := by
  obtain ⟨σ, -, reach, seen⟩ := Scenario.reachable_of_outcome aboutToReturn
    (fun σ => decide ((σ.client 0).map Client.wait4 = some (some (.tran 11)) ∧
      ((σ.tran 11).bind fun tr => σ.buf tr.data) = some [1, 2, 3, 4, 5] ∧
      received σ (Scenario.receive 0 (returnHeader 3) 0) = some (0, .svrreturn, returnHeader 3) ∧
      received σ (Scenario.receive 0 (returnHeader (-1)) 0) =
        some (0, .svrreturn, returnHeader (-1)))) true (by decide +kernel)
  obtain ⟨executing, data, received⟩ := of_decide_eq_true seen
  obtain ⟨x, live, executing⟩ := Option.map_eq_some_iff.mp executing
  obtain ⟨tr, current, data⟩ := Option.bind_eq_some_iff.mp data
  exact ⟨σ, x, tr, reach, live, executing, current, data, received⟩

/-- Three of the five bytes are kept while there is memory; without it the five are lost. -/
theorem return_keeps_data_three :
    ∃ σ b x tr μ ν, Reachable anyStep σ ∧ σ.client 0 = some x ∧ x.wait4 = some (.tran 11) ∧
      σ.tran 11 = some tr ∧
      svrreturnData true 0 b (σ.begin 0 .svrreturn b (returnHeader 3)) = .ok (some σ.next, μ) ∧
      μ.buf σ.next = some [1, 2, 3] ∧
      svrreturnData false 0 b (σ.begin 0 .svrreturn b (returnHeader 3)) = .ok (none, ν) ∧
      ν.buf tr.data = some [1, 2, 3, 4, 5] := by
  obtain ⟨σ, x, tr, reach, live, executing, current, data, received, -⟩ := about_to_return
  have fits : 0 ≤ returnLength (returnHeader 3) := by decide +kernel
  obtain ⟨b, old, stored, μ, into, data', done, buffer, kept, -, -⟩ :=
    return_keeps_data true reach received live executing current
  obtain ⟨b', old', stored', ν, into', data'', done', buffer', -, lost, -⟩ :=
    return_keeps_data false reach received live executing current
  obtain rfl := Option.some.inj (data.symm.trans data')
  obtain rfl := Option.some.inj (data.symm.trans data'')
  obtain rfl := Option.some.inj (into.symm.trans into')
  obtain ⟨data, rfl⟩ := Option.isSome_iff_exists.mp (buffer.mpr ⟨fits, rfl⟩)
  obtain rfl : stored' = none := by simpa using buffer'
  obtain ⟨-, -, rfl, bufs⟩ := kept data rfl
  refine ⟨σ, b, x, tr, μ, ν, reach, live, executing, current, done, ?_, done', (lost rfl).2⟩
  rw [bufs, if_pos rfl]
  decide +kernel

/-- A negative length kills the switchboard in the assertions of `svriowait`, with the data of the
transaction allocated and null in its place. -/
theorem return_refused :
    ∃ σ b x tr μ, Reachable anyStep σ ∧ σ.client 0 = some x ∧ x.wait4 = some (.tran 11) ∧
      σ.tran 11 = some tr ∧
      Received σ (Scenario.receive 0 (returnHeader (-1)) 0) 0 .svrreturn (returnHeader (-1)) ∧
      svrreturnData true 0 b (σ.begin 0 .svrreturn b (returnHeader (-1))) = .ok (none, μ) ∧
      μ.buf tr.data = some [1, 2, 3, 4, 5] ∧
      step σ (Scenario.receive 0 (returnHeader (-1)) 0) = .error .assertion := by
  obtain ⟨σ, x, tr, reach, live, executing, current, data, -, received⟩ := about_to_return
  have negative : ¬ (0 ≤ returnLength (returnHeader (-1)) ∧ true = true) := by decide +kernel
  obtain ⟨b, old, into, fresh, apart, data', data'', begun, called⟩ :=
    start_of_svrreturn (inv_of_reachable reach) received live current
  obtain rfl := Option.some.inj (data.symm.trans data')
  have stores := svrreturnData_run (σ := σ.begin 0 .svrreturn b (returnHeader (-1))) true
    (if_pos rfl) begun executing current data'' apart fresh
  rw [if_neg negative] at stores
  have dies : svrreturn 0 b (σ.begin 0 .svrreturn b (returnHeader (-1))) = .error .assertion :=
    bind_of_ok stores
  exact ⟨σ, b, x, tr, _, reach, live, executing, current, received, stores,
    (refused_buf apart).trans data'', by rw [called, dies]; rfl⟩

end Switchboard
end Xatmi
