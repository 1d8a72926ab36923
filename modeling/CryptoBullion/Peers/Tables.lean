import CryptoBullion.Common.Buckets
import CryptoBullion.Model.AddrMan
/-!
# Where the addresses are filed

Each address the manager knows is in one place of the tried table, or in
some buckets of the new one. `Filed` says that of the two tables, and that
the references of an address count the buckets it is in. While a function
of the manager runs, one new address may be loose: in fewer buckets than it
will be, and with a reference more than there are of them. What becomes of
an address is lent, filed, dropped, demoted or promoted, and each keeps
`Filed`.
-/

namespace CryptoBullion

namespace Peers

open Buckets

/-- What a loose address has in references beyond its buckets. -/
def owed (loose : Option ℕ) (k : ℤ) (n : ℕ) : ℤ := if loose = some n then k else 0

variable {loose : Option ℕ} {k r : ℤ} {table : ℕ → Option (Option (Fin triedBucketCount))}
variable {refs : ℕ → Option ℤ} {vvTried : Fin triedBucketCount → List ℕ}
variable {vvNew : Fin newBucketCount → Finset ℕ} {m n : ℕ}
variable {b : Fin triedBucketCount} {c : Fin newBucketCount}

/-- `table n` is the tried bucket of an address, `none` for a new one. -/
structure Filed (loose : Option ℕ) (k : ℤ) (table : ℕ → Option (Option (Fin triedBucketCount)))
    (refs : ℕ → Option ℤ) (vvTried : Fin triedBucketCount → List ℕ)
    (vvNew : Fin newBucketCount → Finset ℕ) : Prop where
  mem_tried : ∀ b n, n ∈ vvTried b ↔ table n = some (some b)
  nodup_tried : ∀ b, (vvTried b).Nodup
  length_tried : ∀ b, (vvTried b).length ≤ triedBucketSize
  of_mem_new : ∀ c n, n ∈ vvNew c → table n = some none
  card_new : ∀ c, (vvNew c).card ≤ newBucketSize
  refs_eq : ∀ n r, refs n = some r → r = copies vvNew n + owed loose k n
  copies_pos : ∀ n, table n = some none → loose ≠ some n → 0 < copies vvNew n
  copies_le : ∀ n, copies vvNew n + (if loose = some n then 1 else 0) ≤ newBucketsPerAddress
  loose_new : ∀ n, loose = some n → table n = some none

namespace Filed

theorem init : Filed none 0 (fun _ => none) (fun _ => none) (fun _ => []) (fun _ => ∅) where
  mem_tried b n := by simp
  nodup_tried b := List.nodup_nil
  length_tried b := Nat.zero_le _
  of_mem_new c n h := absurd h (Finset.notMem_empty n)
  card_new c := Nat.zero_le _
  refs_eq n r h := by cases h
  copies_pos n h := by cases h
  copies_le n := by
    rw [copies_eq_zero_iff.2 fun _ => Finset.notMem_empty n, if_neg (by simp)]
    exact Nat.zero_le _
  loose_new n h := by cases h

/-- An address that is not a new one is in no new bucket. -/
theorem copies_eq_zero (h : Filed loose k table refs vvTried vvNew) (hn : table n ≠ some none) :
    copies vvNew n = 0 :=
  copies_eq_zero_iff.2 fun c hc => hn (h.of_mem_new c n hc)

/-- One with room for a reference becomes loose. -/
theorem lend (h : Filed none 0 table refs vvTried vvNew) (hn : table n = some none)
    (hroom : copies vvNew n < newBucketsPerAddress) :
    Filed (some n) 0 table refs vvTried vvNew where
  mem_tried := h.mem_tried
  nodup_tried := h.nodup_tried
  length_tried := h.length_tried
  of_mem_new := h.of_mem_new
  card_new := h.card_new
  refs_eq m r hr := by simpa [owed] using h.refs_eq m r hr
  copies_pos m hm _ := h.copies_pos m hm (by simp)
  copies_le m := by
    have := h.copies_le m
    split_ifs with hm
    · obtain rfl := Option.some.inj hm
      exact hroom
    · simpa using this
  loose_new m hm := by
    obtain rfl := Option.some.inj hm
    exact hn

/-- The loose one gets its reference. -/
theorem addRef (h : Filed (some n) 0 table refs vvTried vvNew) (hr : refs n = some r) :
    Filed (some n) 1 table (Function.update refs n (some (r + 1))) vvTried vvNew where
  mem_tried := h.mem_tried
  nodup_tried := h.nodup_tried
  length_tried := h.length_tried
  of_mem_new := h.of_mem_new
  card_new := h.card_new
  refs_eq m r' hr' := by
    rw [Function.update_apply] at hr'
    split_ifs at hr' with hm
    · subst hm
      have := h.refs_eq m r hr
      simp only [owed, if_true] at this ⊢
      injection hr' with hr'
      omega
    · have hne : ¬ (some n = some m) := fun heq => hm (Option.some.inj heq).symm
      simpa [owed, hne] using h.refs_eq m r' hr'
  copies_pos := h.copies_pos
  copies_le := h.copies_le
  loose_new := h.loose_new

/-- **The loose one goes into a bucket** it is not in. -/
theorem put (h : Filed (some n) 1 table refs vvTried vvNew) (hn : n ∉ vvNew c)
    (hroom : (vvNew c).card < newBucketSize) :
    Filed none 0 table refs vvTried (put vvNew c n) where
  mem_tried := h.mem_tried
  nodup_tried := h.nodup_tried
  length_tried := h.length_tried
  of_mem_new c' m hm := by
    rcases mem_put.1 hm with ⟨rfl, -⟩ | hm
    · exact h.loose_new m rfl
    · exact h.of_mem_new c' m hm
  card_new c' := card_put_le h.card_new hroom
  refs_eq m r hr := by
    have := h.refs_eq m r hr
    unfold owed at this ⊢
    by_cases hm : m = n
    · subst hm
      rw [copies_put_self hn, if_neg (by simp)]
      rw [if_pos rfl] at this
      push_cast
      omega
    · rw [copies_put_of_ne hm, if_neg (by simp)]
      rwa [if_neg (fun heq => hm (Option.some.inj heq).symm)] at this
  copies_pos m hm _ := by
    by_cases hmn : m = n
    · subst hmn
      rw [copies_put_self hn]
      exact Nat.succ_pos _
    · rw [copies_put_of_ne hmn]
      exact h.copies_pos m hm fun heq => hmn (Option.some.inj heq).symm
  copies_le m := by
    have := h.copies_le m
    rw [if_neg (by simp)]
    by_cases hm : m = n
    · subst hm
      rw [copies_put_self hn]
      rwa [if_pos rfl] at this
    · rw [copies_put_of_ne hm]
      exact (Nat.le_add_right _ _).trans this
  loose_new m hm := by cases hm

/-- **One of several references is dropped.** -/
theorem drop (h : Filed loose k table refs vvTried vvNew) (hm : m ∈ vvNew c)
    (hloose : loose ≠ some m) (hr : refs m = some r) (hmore : r - 1 ≠ 0) :
    Filed loose k table (Function.update refs m (some (r - 1))) vvTried (take vvNew c m) where
  mem_tried := h.mem_tried
  nodup_tried := h.nodup_tried
  length_tried := h.length_tried
  of_mem_new c' n hn := h.of_mem_new c' n (mem_take.1 hn).2
  card_new c' := card_take_le.trans (h.card_new c')
  refs_eq n r' hr' := by
    rw [Function.update_apply] at hr'
    split_ifs at hr' with hn
    · subst hn
      have heq := h.refs_eq n r hr
      have htake := copies_take_self hm
      injection hr' with hr'
      omega
    · rw [copies_take_of_ne hn]
      exact h.refs_eq n r' hr'
  copies_pos n hn hln := by
    by_cases hnm : n = m
    · subst hnm
      have heq := h.refs_eq n r hr
      have htake := copies_take_self hm
      unfold owed at heq
      rw [if_neg hloose] at heq
      omega
    · rw [copies_take_of_ne hnm]
      exact h.copies_pos n hn hln
  copies_le n := by
    have := h.copies_le n
    by_cases hnm : n = m
    · subst hnm
      have htake := copies_take_self hm
      omega
    · rwa [copies_take_of_ne hnm]
  loose_new := h.loose_new

/-- **With its last reference an address goes.** -/
theorem remove (h : Filed loose k table refs vvTried vvNew) (hm : m ∈ vvNew c)
    (hloose : loose ≠ some m) (hr : refs m = some r) (hlast : r - 1 = 0) :
    Filed loose k (Function.update table m none) (Function.update refs m none) vvTried
      (take vvNew c m) := by
  have hnone : ∀ c', m ∉ take vvNew c m c' := by
    have heq := h.refs_eq m r hr
    have htake := copies_take_self hm
    unfold owed at heq
    rw [if_neg hloose] at heq
    exact copies_eq_zero_iff.1 (by omega)
  have htable := h.of_mem_new c m hm
  constructor
  · intro b n
    rw [h.mem_tried, Function.update_apply]
    split_ifs with hn
    · subst hn
      simp [htable]
    · exact Iff.rfl
  · exact h.nodup_tried
  · exact h.length_tried
  · intro c' n hn
    have hne : n ≠ m := fun heq => hnone c' (heq ▸ hn)
    rw [Function.update_of_ne hne]
    exact h.of_mem_new c' n (mem_take.1 hn).2
  · exact fun c' => card_take_le.trans (h.card_new c')
  · intro n r' hr'
    rw [Function.update_apply] at hr'
    split_ifs at hr' with hn
    rw [copies_take_of_ne hn]
    exact h.refs_eq n r' hr'
  · intro n hn hln
    rw [Function.update_apply] at hn
    split_ifs at hn with hnm
    rw [copies_take_of_ne hnm]
    exact h.copies_pos n hn hln
  · intro n
    have := h.copies_le n
    by_cases hnm : n = m
    · subst hnm
      have htake := copies_take_self hm
      omega
    · rwa [copies_take_of_ne hnm]
  · intro n hn
    have hne : n ≠ m := fun heq => hloose (heq ▸ hn)
    rw [Function.update_of_ne hne]
    exact h.loose_new n hn

/-- **An address nobody knew** comes in loose. -/
theorem enter (h : Filed none 0 table refs vvTried vvNew) (hn : table n = none) :
    Filed (some n) 0 (Function.update table n (some none)) (Function.update refs n (some 0))
      vvTried vvNew := by
  have hnone : copies vvNew n = 0 := h.copies_eq_zero (by rw [hn]; simp)
  constructor
  · intro b m
    rw [h.mem_tried, Function.update_apply]
    split_ifs with hm
    · subst hm
      simp [hn]
    · exact Iff.rfl
  · exact h.nodup_tried
  · exact h.length_tried
  · intro c' m hm
    rw [Function.update_apply]
    split_ifs
    · rfl
    · exact h.of_mem_new c' m hm
  · exact h.card_new
  · intro m r hr
    rw [Function.update_apply] at hr
    unfold owed
    split_ifs at hr with hm
    · subst hm
      injection hr with hr
      rw [hnone, if_pos rfl, ← hr]
      rfl
    · have := h.refs_eq m r hr
      rw [if_neg fun heq => hm (Option.some.inj heq).symm]
      simpa [owed] using this
  · intro m hm hloose
    rw [Function.update_of_ne fun heq => hloose (by rw [heq])] at hm
    exact h.copies_pos m hm (by simp)
  · intro m
    have := h.copies_le m
    split_ifs with hm
    · obtain rfl := Option.some.inj hm
      rw [hnone]
      decide
    · simpa using this
  · intro m hm
    obtain rfl := Option.some.inj hm
    exact Function.update_self _ _ _

/-- **A new address comes out of all its buckets.** -/
theorem withdraw (h : Filed none 0 table refs vvTried vvNew) (hn : table n = some none) :
    Filed (some n) 0 table (Function.update refs n (some 0)) vvTried (takeAll vvNew n) where
  mem_tried := h.mem_tried
  nodup_tried := h.nodup_tried
  length_tried := h.length_tried
  of_mem_new c m hm := h.of_mem_new c m (mem_takeAll.1 hm).2
  card_new c := card_takeAll_le.trans (h.card_new c)
  refs_eq m r hr := by
    rw [Function.update_apply] at hr
    unfold owed
    split_ifs at hr with hm
    · subst hm
      injection hr with hr
      rw [copies_takeAll_self, if_pos rfl, ← hr]
      rfl
    · have := h.refs_eq m r hr
      rw [copies_takeAll_of_ne hm, if_neg fun heq => hm (Option.some.inj heq).symm]
      simpa [owed] using this
  copies_pos m hm hloose := by
    rw [copies_takeAll_of_ne fun heq => hloose (by rw [heq])]
    exact h.copies_pos m hm (by simp)
  copies_le m := by
    have := h.copies_le m
    by_cases hm : m = n
    · subst hm
      rw [copies_takeAll_self, if_pos rfl]
      decide
    · rw [copies_takeAll_of_ne hm, if_neg fun heq => hm (Option.some.inj heq).symm]
      simpa using this
  loose_new m hm := by
    obtain rfl := Option.some.inj hm
    exact hn

/-- **A tried address goes back** to a new bucket with room. -/
theorem demote (h : Filed (some n) 0 table refs vvTried vvNew) (hm : table m = some (some b))
    (hroom : (vvNew c).card < newBucketSize) :
    Filed (some n) 0 (Function.update table m (some none)) (Function.update refs m (some 1))
      (Function.update vvTried b ((vvTried b).erase m)) (Buckets.put vvNew c m) := by
  have hzero : copies vvNew m = 0 := h.copies_eq_zero (by rw [hm]; simp)
  have hmc : m ∉ vvNew c := copies_eq_zero_iff.1 hzero c
  have hne : n ≠ m := by
    intro heq
    have := h.loose_new n rfl
    rw [heq, hm] at this
    cases this
  constructor
  · intro b' n'
    rw [Function.update_apply, Function.update_apply]
    by_cases hn' : n' = m
    · subst hn'
      rw [if_pos rfl]
      split_ifs with hb
      · simp [(h.nodup_tried b).mem_erase_iff]
      · rw [h.mem_tried, hm]
        simp [Ne.symm hb]
    · rw [if_neg hn', ← h.mem_tried]
      split_ifs with hb
      · subst hb
        rw [List.mem_erase_of_ne hn']
      · exact Iff.rfl
  · intro b'
    rw [Function.update_apply]
    split_ifs
    · exact (h.nodup_tried b).erase m
    · exact h.nodup_tried b'
  · intro b'
    rw [Function.update_apply]
    split_ifs
    · exact (List.length_erase_le).trans (h.length_tried b)
    · exact h.length_tried b'
  · intro c' n' hn'
    rcases mem_put.1 hn' with ⟨rfl, -⟩ | hn'
    · exact Function.update_self _ _ _
    · rw [Function.update_apply]
      split_ifs
      · rfl
      · exact h.of_mem_new c' n' hn'
  · exact fun c' => card_put_le h.card_new hroom
  · intro n' r hr
    rw [Function.update_apply] at hr
    split_ifs at hr with hn'
    · subst hn'
      injection hr with hr
      unfold owed
      rw [copies_put_self hmc, hzero, if_neg fun heq => hne (Option.some.inj heq), ← hr]
      rfl
    · rw [copies_put_of_ne hn']
      exact h.refs_eq n' r hr
  · intro n' hn' hloose
    by_cases hnm : n' = m
    · subst hnm
      rw [copies_put_self hmc]
      exact Nat.succ_pos _
    · rw [Function.update_of_ne hnm] at hn'
      rw [copies_put_of_ne hnm]
      exact h.copies_pos n' hn' hloose
  · intro n'
    by_cases hnm : n' = m
    · subst hnm
      rw [copies_put_self hmc, hzero, if_neg fun heq => hne (Option.some.inj heq)]
      decide
    · rw [copies_put_of_ne hnm]
      exact h.copies_le n'
  · intro n' hn'
    obtain rfl := Option.some.inj hn'
    rw [Function.update_of_ne hne]
    exact h.loose_new n rfl

/-- **The loose address, in no bucket, is tried now.** -/
theorem promote (h : Filed (some n) 0 table refs vvTried vvNew) (hzero : copies vvNew n = 0)
    (hroom : (vvTried b).length < triedBucketSize) :
    Filed none 0 (Function.update table n (some (some b))) refs
      (Function.update vvTried b (vvTried b ++ [n])) vvNew := by
  have hn := h.loose_new n rfl
  have hnb : ∀ b', n ∉ vvTried b' := by
    intro b' hmem
    rw [h.mem_tried, hn] at hmem
    cases hmem
  constructor
  · intro b' n'
    rw [Function.update_apply, Function.update_apply]
    by_cases hn' : n' = n
    · subst hn'
      rw [if_pos rfl]
      split_ifs with hb
      · simp [hb]
      · simp [hnb b', Ne.symm hb]
    · rw [if_neg hn', ← h.mem_tried]
      split_ifs with hb
      · simp [hb, hn']
      · exact Iff.rfl
  · intro b'
    rw [Function.update_apply]
    split_ifs
    · exact List.nodup_append_comm.1 (List.nodup_cons.2 ⟨hnb b, h.nodup_tried b⟩)
    · exact h.nodup_tried b'
  · intro b'
    rw [Function.update_apply]
    split_ifs
    · rw [List.length_append, List.length_singleton]
      exact hroom
    · exact h.length_tried b'
  · intro c' n' hn'
    have hne : n' ≠ n := fun heq => copies_eq_zero_iff.1 hzero c' (heq ▸ hn')
    rw [Function.update_of_ne hne]
    exact h.of_mem_new c' n' hn'
  · exact h.card_new
  · intro n' r hr
    have := h.refs_eq n' r hr
    simpa [owed] using this
  · intro n' hn' _
    rw [Function.update_apply] at hn'
    split_ifs at hn' with hne
    · simp at hn'
    · exact h.copies_pos n' hn' fun heq => hne (Option.some.inj heq).symm
  · intro n'
    rw [if_neg (by simp)]
    exact (Nat.le_add_right _ _).trans (h.copies_le n')
  · intro n' hn'
    cases hn'

/-- Within its bucket a tried address may be anywhere. -/
theorem perm {vvTried' : Fin triedBucketCount → List ℕ}
    (h : Filed loose k table refs vvTried vvNew) (hperm : ∀ b, (vvTried' b).Perm (vvTried b)) :
    Filed loose k table refs vvTried' vvNew where
  mem_tried b n := by rw [(hperm b).mem_iff, h.mem_tried]
  nodup_tried b := (hperm b).nodup_iff.2 (h.nodup_tried b)
  length_tried b := (hperm b).length_eq.trans_le (h.length_tried b)
  of_mem_new := h.of_mem_new
  card_new := h.card_new
  refs_eq := h.refs_eq
  copies_pos := h.copies_pos
  copies_le := h.copies_le
  loose_new := h.loose_new

end Filed

end Peers

end CryptoBullion
