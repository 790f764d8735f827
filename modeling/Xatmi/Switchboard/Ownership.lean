import Xatmi.Switchboard.Registry
import Xatmi.Switchboard.WaitQueues

/-!
# Transactions and their clients

Every current transaction is on exactly one of the two queues of the client that submitted it, once,
and the queues hold nothing else.
-/

namespace Xatmi
namespace Switchboard

/-- Everything a client has submitted and not yet got back. -/
def Client.outstanding (x : Client) : List TranId :=
  x.requests ++ x.replies

/-- What holds of the queues of transactions in every reachable memory. -/
structure Ownership (σ : State) : Prop where
  transactions_nodup : σ.transactions.Nodup
  mem_transactions : ∀ t, t ∈ σ.transactions ↔ ∃ tr, σ.tran t = some tr
  nodup : ∀ c x, σ.client c = some x → x.outstanding.Nodup
  mine : ∀ c x t, σ.client c = some x → t ∈ x.outstanding →
    ∃ tr, σ.tran t = some tr ∧ tr.client = c
  owned : ∀ t tr, σ.tran t = some tr → ∃ x, σ.client tr.client = some x ∧ t ∈ x.outstanding

namespace Ownership

variable {φ φ' : Phase} {σ τ : State}

theorem start : Ownership .start := by
  constructor <;> simp [State.start]

theorem congr (inv : Ownership σ) (transactions : τ.transactions = σ.transactions)
    (client : ∀ c, (τ.client c).map Client.outstanding = (σ.client c).map Client.outstanding)
    (tran : ∀ t, (τ.tran t).map Transaction.client = (σ.tran t).map Transaction.client) :
    Ownership τ := by
  constructor
  · exact transactions ▸ inv.transactions_nodup
  · intro t
    rw [transactions, exists_iff_of_map_eq (tran t)]
    exact inv.mem_transactions t
  · intro c x live
    obtain ⟨y, live', same⟩ := exists_of_map_eq (client c) live
    exact same ▸ inv.nodup c y live'
  · intro c x t live member
    obtain ⟨y, live', same⟩ := exists_of_map_eq (client c) live
    obtain ⟨tr, found, owner⟩ := inv.mine c y t live' (same ▸ member)
    obtain ⟨tr', found', owner'⟩ := exists_of_map_eq (tran t).symm found
    exact ⟨tr', found', owner'.trans owner⟩
  · intro t tr found
    obtain ⟨tr', found', owner'⟩ := exists_of_map_eq (tran t) found
    obtain ⟨x, live, member⟩ := inv.owned t tr' found'
    obtain ⟨y, live', same⟩ := exists_of_map_eq (client tr'.client).symm live
    exact ⟨y, owner' ▸ live', same ▸ member⟩

/-- A transaction is owned by one client only. -/
theorem owner_eq (inv : Ownership σ) {c : ClientId} {x : Client} {t : TranId} {tr : Transaction}
    (live : σ.client c = some x) (member : t ∈ x.outstanding) (found : σ.tran t = some tr) :
    tr.client = c := by
  obtain ⟨tr', found', owner⟩ := inv.mine c x t live member
  rw [Option.some.inj (found.symm.trans found')]
  exact owner

/-! ## Effects -/

theorem addClient (inv : Ownership σ) (fresh : σ.client σ.next = none) : Ownership σ.addClient := by
  constructor
  · exact inv.transactions_nodup
  · exact inv.mem_transactions
  · intro c x live
    rcases put_eq_some_iff.mp live with ⟨_, made⟩ | ⟨_, live⟩
    · simp [← Option.some.inj made, Client.outstanding]
    · exact inv.nodup c x live
  · intro c x t live member
    rcases put_eq_some_iff.mp live with ⟨_, made⟩ | ⟨_, live⟩
    · simp [← Option.some.inj made, Client.outstanding] at member
    · exact inv.mine c x t live member
  · intro t tr found
    obtain ⟨x, live, member⟩ := inv.owned t tr found
    refine ⟨x, put_eq_some_iff.mpr (.inr ⟨?_, live⟩), member⟩
    intro same
    simp [same, fresh] at live

theorem dropClient (inv : Ownership σ) {c : ClientId} {x : Client} (live : σ.client c = some x)
    (empty : x.outstanding = []) : Ownership (σ.dropClient c) := by
  have other : ∀ {k y}, (σ.dropClient c).client k = some y → k ≠ c ∧ σ.client k = some y := by
    intro k y live'
    rcases put_eq_some_iff.mp live' with ⟨_, impossible⟩ | remaining
    · cases impossible
    · exact remaining
  constructor
  · exact inv.transactions_nodup
  · exact inv.mem_transactions
  · exact fun k y live' => inv.nodup k y (other live').2
  · exact fun k y t live' => inv.mine k y t (other live').2
  · intro t tr found
    obtain ⟨y, live', member⟩ := inv.owned t tr found
    refine ⟨y, put_eq_some_iff.mpr (.inr ⟨?_, live'⟩), member⟩
    intro same
    rw [same, live] at live'
    simp [← Option.some.inj live', empty] at member

theorem submit (inv : Ownership σ) (fresh : σ.tran (σ.next + 1) = none) {tr : Transaction}
    {x : Client} {len : Nat} (live : σ.client tr.client = some x) :
    Ownership (σ.submit tr len) := by
  have new : σ.next + 1 ∉ σ.transactions := by simp [inv.mem_transactions, fresh]
  have client : ∀ {k y}, (σ.submit tr len).client k = some y ↔ ∃ z, σ.client k = some z ∧
      y = if k = tr.client then { z with requests := z.requests ++ [σ.next + 1] } else z :=
    change_eq_some_iff
  have tran : ∀ {t tr'}, (σ.submit tr len).tran t = some tr' ↔
      t = σ.next + 1 ∧ some tr = some tr' ∨ t ≠ σ.next + 1 ∧ σ.tran t = some tr' :=
    put_eq_some_iff
  have unowned : ∀ {k z}, σ.client k = some z → σ.next + 1 ∉ z.outstanding := by
    intro k z seen member
    obtain ⟨tr', found, _⟩ := inv.mine k z _ seen member
    simp [fresh] at found
  constructor
  · have nodup := inv.transactions_nodup
    change (σ.transactions ++ [σ.next + 1]).Nodup
    simp only [List.nodup_append]
    grind
  · intro t
    change t ∈ σ.transactions ++ [σ.next + 1] ↔ _
    simp only [List.mem_append, List.mem_singleton, inv.mem_transactions, tran]
    grind
  · intro k y live'
    obtain ⟨z, seen, rfl⟩ := client.mp live'
    have nodup := inv.nodup k z seen
    have new := unowned seen
    simp only [Client.outstanding] at nodup new ⊢
    split
    · simp only [List.nodup_append, List.mem_append] at nodup new ⊢
      grind
    · exact nodup
  · intro k y t live' member
    obtain ⟨z, seen, rfl⟩ := client.mp live'
    by_cases same : t = σ.next + 1
    · refine ⟨tr, tran.mpr (.inl ⟨same, rfl⟩), ?_⟩
      have new := unowned seen
      grind
    · have inside : t ∈ z.outstanding := by grind [Client.outstanding]
      obtain ⟨tr', found, owner⟩ := inv.mine k z t seen inside
      exact ⟨tr', tran.mpr (.inr ⟨same, found⟩), owner⟩
  · intro t tr' found
    rcases tran.mp found with ⟨rfl, made⟩ | ⟨_, found⟩
    · obtain rfl := Option.some.inj made
      exact ⟨_, client.mpr ⟨x, live, rfl⟩, by simp [Client.outstanding]⟩
    · obtain ⟨z, seen, member⟩ := inv.owned t tr' found
      exact ⟨_, client.mpr ⟨z, seen, rfl⟩, by grind [Client.outstanding]⟩

theorem delTran (inv : Ownership σ) {t : TranId} {tr : Transaction} (found : σ.tran t = some tr) :
    Ownership (σ.delTran t tr) := by
  have client : ∀ {k y}, (σ.delTran t tr).client k = some y ↔
      ∃ z, σ.client k = some z ∧ σ.bereave t tr k z = y :=
    Option.map_eq_some_iff
  have tran : ∀ {t' tr'}, (σ.delTran t tr).tran t' = some tr' ↔
      t' ≠ t ∧ σ.tran t' = some tr' := by
    intro t' tr'
    exact put_eq_some_iff.trans (by simp)
  have outstanding : ∀ {k z}, σ.client k = some z →
      (σ.bereave t tr k z).outstanding.Nodup ∧
        ∀ t', t' ∈ (σ.bereave t tr k z).outstanding ↔ t' ∈ z.outstanding ∧ t' ≠ t := by
    intro k z seen
    have nodup := inv.nodup k z seen
    have owner : t ∈ z.outstanding → σ.tran t = some tr → tr.client = k := inv.owner_eq seen
    simp only [Client.outstanding, List.nodup_append, List.mem_append] at nodup owner
    simp only [Client.outstanding, State.bereave, List.nodup_append, List.mem_append]
    split
    · refine ⟨⟨nodup.1.erase t, nodup.2.1.erase t, ?_⟩, ?_⟩
      · grind [List.mem_of_mem_erase]
      · intro t'
        rw [nodup.1.mem_erase_iff, nodup.2.1.mem_erase_iff]
        grind
    · refine ⟨nodup, ?_⟩
      grind
  constructor
  · exact inv.transactions_nodup.erase t
  · intro t'
    change t' ∈ σ.transactions.erase t ↔ _
    simp only [inv.transactions_nodup.mem_erase_iff, inv.mem_transactions, tran, exists_and_left]
  · intro k y live
    obtain ⟨z, seen, rfl⟩ := client.mp live
    exact (outstanding seen).1
  · intro k y t' live member
    obtain ⟨z, seen, rfl⟩ := client.mp live
    obtain ⟨inside, different⟩ := ((outstanding seen).2 t').mp member
    obtain ⟨tr', found', owner⟩ := inv.mine k z t' seen inside
    exact ⟨tr', tran.mpr ⟨different, found'⟩, owner⟩
  · intro t' tr' found'
    obtain ⟨different, found'⟩ := tran.mp found'
    obtain ⟨z, seen, member⟩ := inv.owned t' tr' found'
    exact ⟨_, client.mpr ⟨z, seen, rfl⟩, ((outstanding seen).2 t').mpr ⟨member, different⟩⟩

theorem requeue (inv : Ownership σ) {t : TranId} {tr : Transaction} (found : σ.tran t = some tr) :
    Ownership (σ.requeue t tr) := by
  have client : ∀ {k y}, (σ.requeue t tr).client k = some y ↔ ∃ z, σ.client k = some z ∧
      y = if k = tr.client then { z with
        requests := z.requests.erase t, replies := z.replies.erase t ++ [t] } else z :=
    change_eq_some_iff
  have outstanding : ∀ {k z}, σ.client k = some z → ∀ {y},
      y = (if k = tr.client then { z with
        requests := z.requests.erase t, replies := z.replies.erase t ++ [t] } else z) →
      y.outstanding.Nodup ∧ ∀ t', t' ∈ y.outstanding ↔ t' ∈ z.outstanding := by
    rintro k z seen _ rfl
    have nodup := inv.nodup k z seen
    obtain ⟨x, live, member⟩ := inv.owned t tr found
    split
    · rename_i same
      subst same
      obtain rfl := Option.some.inj (live.symm.trans seen)
      simp only [Client.outstanding, List.nodup_append, List.mem_append] at nodup member ⊢
      simp only [nodup.1.mem_erase_iff, nodup.2.1.mem_erase_iff, List.mem_singleton]
      refine ⟨⟨nodup.1.erase t, ⟨nodup.2.1.erase t, by simp, by grind⟩, by grind⟩, by grind⟩
    · exact ⟨nodup, fun _ => Iff.rfl⟩
  constructor
  · exact inv.transactions_nodup
  · exact inv.mem_transactions
  · intro k y live
    obtain ⟨z, seen, made⟩ := client.mp live
    exact (outstanding seen made).1
  · intro k y t' live member
    obtain ⟨z, seen, made⟩ := client.mp live
    exact inv.mine k z t' seen (((outstanding seen made).2 t').mp member)
  · intro t' tr' found'
    obtain ⟨z, seen, member⟩ := inv.owned t' tr' found'
    exact ⟨_, client.mpr ⟨z, seen, rfl⟩, ((outstanding seen rfl).2 t').mpr member⟩

theorem mapClient (inv : Ownership σ) {c : ClientId} {update : Client → Client}
    (same : ∀ x, (update x).outstanding = x.outstanding) : Ownership (σ.mapClient c update) :=
  inv.congr rfl (fun _ => change_map same) (fun _ => rfl)

theorem nextCommand (inv : Ownership σ) (c : ClientId) : Ownership (σ.nextCommand c) :=
  inv.congr rfl (fun _ => change_map fun _ => rfl) (fun _ => rfl)

theorem reply (inv : Ownership σ) {t : TranId} {tr : Transaction} (found : σ.tran t = some tr)
    (contents : Bytes) : Ownership (σ.reply t tr contents) := by
  have written : Ownership (σ.write tr.client (replyFrame tr contents)) :=
    inv.congr rfl (fun _ => rfl) (fun _ => rfl)
  refine delTran ?_ found
  refine mapClient ?_ fun _ => rfl
  exact written.nextCommand tr.client

theorem assign (inv : Ownership σ) (a : AdvertId) (v : Advert) (t : TranId) (frame : Bytes) :
    Ownership (σ.assign a v t frame) := by
  refine nextCommand ?_ v.client
  exact inv.congr rfl (fun _ => change_map fun _ => rfl) (fun _ => change_map fun _ => rfl)

theorem setReturn (inv : Ownership σ) (t : TranId) (b : BufId) (rval : BitVec 32)
    (rcode : BitVec 64) (data : Bytes) : Ownership (σ.setReturn t b rval rcode data) := by
  have stored : Ownership (σ.mapTran t fun tr => { tr with rval, rcode }) :=
    inv.congr rfl (fun _ => rfl) (fun _ => change_map fun _ => rfl)
  exact stored.congr rfl (fun _ => rfl) (fun _ => change_map fun _ => rfl)

theorem effect {σ₀ : State} {e : Event} (inv : Ownership σ)
    (freshClient : σ.client σ.next = none) (freshTran : σ.tran (σ.next + 1) = none)
    (eff : Effect σ₀ e ⟨φ, σ⟩ ⟨φ', τ⟩) : Ownership τ := by
  cases eff with
  | connect => exact (inv.addClient freshClient).nextCommand _
  | fill | begin | armHeader | next | armUpload | block | armReturn | offer | detach =>
      exact inv.congr rfl (fun _ => change_map fun _ => rfl) (fun _ => rfl)
  | finish | fail =>
      exact inv.congr rfl (fun _ => change_map fun _ => rfl) (fun _ => change_map fun _ => rfl)
  | call | write | release | resize | enqueue | park | found | dropService | dropAdvert =>
      exact inv.congr rfl (fun _ => rfl) (fun _ => rfl)
  | rest | spare | close | orphan | done => exact inv
  | submit _ _ live _ _ client =>
      subst client
      exact inv.submit freshTran live
  | assignUp | assignWork =>
      refine assign ?_ _ _ _ _
      exact inv.congr rfl (fun _ => rfl) (fun _ => rfl)
  | replyQueued _ _ _ _ _ _ deletable => exact inv.reply deletable.live _
  | replyWaiting _ _ _ _ deletable => exact inv.reply deletable.live _
  | requeue _ found => exact inv.requeue found
  | setReturn => exact inv.setReturn _ _ _ _ _
  | sweep _ _ _ _ deletable => exact inv.delTran deletable.live
  | purge _ _ _ _ _ _ _ deletable => exact inv.delTran deletable.live
  | dropClient _ _ _ live _ noRequests noReplies =>
      exact inv.dropClient live (by simp [Client.outstanding, noRequests, noReplies])

end Ownership

end Switchboard
end Xatmi
