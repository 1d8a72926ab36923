import CryptoBullion.Model.RelayMemory
/-!
# How long relayed data stays available

The queue has an entry for every call of the last quarter of an hour, but
the map has one for every item, and the first entry of an item to expire
takes it away. Where it was relayed again meanwhile, it is gone before its
time, unless the call that expires it relays it once more. That is the only
way it can go (`available_iff`).
-/

namespace CryptoBullion

namespace RelayMemory

variable {s : RelayMemory} {nNow : ℤ} {inv : CInv} {ss : List UInt8} {mapRelay : Map CInv (List UInt8)}
variable {q : List (ℤ × CInv)} {calls pre : List RelayCall} {c d : RelayCall}

/-! ## Expiry -/

/-- The queue loses what has expired in front. -/
theorem expire_vRelayExpiration : (expire nNow q mapRelay).vRelayExpiration =
    q.dropWhile (·.1 < nNow) := by
  induction q generalizing mapRelay with
  | nil => rfl
  | cons front q ih =>
    rw [expire]
    by_cases hold : front.1 < nNow
    · rw [if_pos hold, ih, List.dropWhile_cons_of_pos (by simpa using hold)]
    · rw [if_neg hold, List.dropWhile_cons_of_neg (by simpa using hold)]

/-- The map loses the items of these entries. -/
theorem mem_expire : inv ∈ (expire nNow q mapRelay).mapRelay ↔
    inv ∈ mapRelay ∧ ∀ e ∈ q.takeWhile (·.1 < nNow), e.2 ≠ inv := by
  induction q generalizing mapRelay with
  | nil => simp [expire]
  | cons front q ih =>
    rw [expire]
    by_cases hold : front.1 < nNow
    · rw [if_pos hold, ih, List.takeWhile_cons_of_pos (by simpa using hold), List.forall_mem_cons,
        Std.ExtTreeMap.mem_erase, ne_eq, Std.compare_eq_iff_eq]
      tauto
    · rw [if_neg hold, List.takeWhile_cons_of_neg (by simpa using hold)]
      simp

/-- In front of a queue in order stand those of its entries that have
expired. -/
theorem mem_takeWhile_iff (hq : q.Pairwise fun e e' => e.1 ≤ e'.1) {e : ℤ × CInv} :
    e ∈ q.takeWhile (·.1 < nNow) ↔ e ∈ q ∧ e.1 < nNow := by
  induction q with
  | nil => simp
  | cons front q ih =>
    obtain ⟨hle, hq⟩ := List.pairwise_cons.1 hq
    by_cases hold : front.1 < nNow
    · rw [List.takeWhile_cons_of_pos (by simpa using hold), List.mem_cons, ih hq, List.mem_cons]
      constructor
      · rintro (rfl | ⟨hmem, hlt⟩)
        · exact ⟨.inl rfl, hold⟩
        · exact ⟨.inr hmem, hlt⟩
      · rintro ⟨rfl | hmem, hlt⟩
        · exact .inl rfl
        · exact .inr ⟨hmem, hlt⟩
    · rw [List.takeWhile_cons_of_neg (by simpa using hold)]
      refine iff_of_false List.not_mem_nil ?_
      rintro ⟨hmem, hlt⟩
      rcases List.mem_cons.1 hmem with rfl | hmem
      · exact hold hlt
      · exact hold ((hle e hmem).trans_lt hlt)

/-- Behind them, the others. -/
theorem dropWhile_eq_filter (hq : q.Pairwise fun e e' => e.1 ≤ e'.1) :
    q.dropWhile (·.1 < nNow) = q.filter (nNow ≤ ·.1) := by
  induction q with
  | nil => rfl
  | cons front q ih =>
    obtain ⟨hle, hq⟩ := List.pairwise_cons.1 hq
    by_cases hold : front.1 < nNow
    · rw [List.dropWhile_cons_of_pos (by simpa using hold), ih hq,
        List.filter_cons_of_neg (by simpa using hold)]
    · rw [List.dropWhile_cons_of_neg (by simpa using hold)]
      refine (List.filter_eq_self.2 fun e he => ?_).symm
      rcases List.mem_cons.1 he with rfl | he
      · simpa using hold
      · exact decide_eq_true ((not_lt.1 hold).trans (hle e he))

/-! ## The queue after some calls -/

/-- When a call's item expires, and the item. -/
def entry (c : RelayCall) : ℤ × CInv := (c.nNow + 15 * 60, c.inv)

/-- Calls at non-decreasing times. -/
def InTime (calls : List RelayCall) : Prop := calls.Pairwise fun c d => c.nNow ≤ d.nNow

theorem InTime.mono (h : InTime calls) (hpre : pre <+: calls) : InTime pre := h.sublist hpre.sublist

theorem InTime.le (h : InTime (pre ++ [d])) (hc : c ∈ pre) : c.nNow ≤ d.nNow :=
  (List.pairwise_append.1 h).2.2 c hc d (List.mem_singleton_self d)

theorem after_append : after (pre ++ [d]) = (after pre).relayMessage d.nNow d.inv d.ss := by
  unfold after
  rw [List.foldl_append]
  rfl

/-- The calls' entries are in order. -/
theorem InTime.pairwise_entry (h : InTime calls) {p : RelayCall → Bool} :
    ((calls.filter p).map entry).Pairwise fun e e' => e.1 ≤ e'.1 := by
  rw [List.pairwise_map]
  exact (h.filter p).imp fun hle => by unfold entry; dsimp only; omega

/-- **The queue has the calls that have not expired** at the last one. -/
theorem vRelayExpiration_after (h : InTime (pre ++ [d])) : (after (pre ++ [d])).vRelayExpiration =
    ((pre ++ [d]).filter (d.nNow ≤ ·.nNow + 15 * 60)).map entry := by
  induction pre using List.reverseRecOn generalizing d with
  | nil => simp [after, relayMessage, expire, empty, entry]
  | append_singleton pre c ih =>
    have hpre := h.mono (List.prefix_append _ [d])
    have hle : c.nNow ≤ d.nNow := h.le (by simp)
    rw [after_append]
    unfold relayMessage
    dsimp only
    rw [expire_vRelayExpiration, ih hpre, dropWhile_eq_filter hpre.pairwise_entry, List.filter_map,
      List.filter_filter, List.filter_append (p := fun e : RelayCall => decide (d.nNow ≤ e.nNow + 15 * 60)),
      List.map_append]
    congr 1
    · -- what expires now is more than what had expired before
      congr 1
      refine List.filter_congr fun e _ => ?_
      unfold entry
      dsimp only [Function.comp_apply]
      rw [Bool.and_eq_left_iff_imp]
      simp only [decide_eq_true_eq]
      omega
    · rw [List.filter_cons_of_pos (by simp), List.filter_nil]
      rfl

/-- **What a call leaves in the map**: its own item, and those it had of
which no entry expires. -/
theorem mem_after_append (h : InTime (pre ++ [c, d])) : inv ∈ (after (pre ++ [c, d])).mapRelay ↔
    inv = d.inv ∨ (inv ∈ (after (pre ++ [c])).mapRelay ∧ ∀ e ∈ pre ++ [c],
      c.nNow ≤ e.nNow + 15 * 60 → e.nNow + 15 * 60 < d.nNow → e.inv ≠ inv) := by
  have hsplit : pre ++ [c, d] = (pre ++ [c]) ++ [d] := by rw [List.append_assoc]; rfl
  rw [hsplit] at h ⊢
  have hpre := h.mono (List.prefix_append _ [d])
  rw [after_append]
  unfold relayMessage
  dsimp only
  rw [Std.ExtTreeMap.mem_insertIfNew, Std.compare_eq_iff_eq, mem_expire, eq_comm]
  refine or_congr Iff.rfl (and_congr Iff.rfl ?_)
  rw [vRelayExpiration_after hpre]
  constructor
  · intro hnone e he hleft hgone
    refine hnone (entry e) ?_
    rw [mem_takeWhile_iff hpre.pairwise_entry]
    exact ⟨List.mem_map.2 ⟨e, List.mem_filter.2 ⟨he, decide_eq_true hleft⟩, rfl⟩, hgone⟩
  · intro hnone e he
    rw [mem_takeWhile_iff hpre.pairwise_entry] at he
    obtain ⟨hmem, hgone⟩ := he
    obtain ⟨call, hcall, rfl⟩ := List.mem_map.1 hmem
    obtain ⟨hcall, hleft⟩ := List.mem_filter.1 hcall
    exact hnone call hcall (of_decide_eq_true hleft) hgone

theorem mem_after_self : d.inv ∈ (after (pre ++ [d])).mapRelay := by
  rw [after_append]
  unfold relayMessage
  dsimp only
  rw [Std.ExtTreeMap.mem_insertIfNew]
  exact .inl Std.ReflCmp.compare_self

/-! ## Availability -/

/-- An item is answered from relay memory, whatever the memory pool has. -/
def Answers (s : RelayMemory) (inv : CInv) : Prop :=
  inv ∈ s.mapRelay ∧ ∀ lookup, s.sendItem lookup inv = s.mapRelay[inv]?

/-- What is in the map is sent from there. -/
theorem answers_of_mem (h : inv ∈ s.mapRelay) : s.Answers inv := by
  refine ⟨h, fun lookup => ?_⟩
  obtain ⟨ss, hss⟩ := Option.isSome_iff_exists.1 (Std.ExtTreeMap.mem_iff_isSome_getElem?.1 h)
  unfold sendItem
  rw [hss]

/-- After each call, the items of the last fifteen minutes are answered from
relay memory. -/
def Available (calls : List RelayCall) : Prop :=
  ∀ pre d, pre ++ [d] <+: calls → ∀ c ∈ pre ++ [d], d.nNow ≤ c.nNow + 15 * 60 →
    (after (pre ++ [d])).Answers c.inv

/-- At the call `d`, right behind `c`, an item expires that is not `d`'s and
has been relayed again in the last fifteen minutes. -/
def Forgets (pre : List RelayCall) (c d : RelayCall) : Prop :=
  ∃ old ∈ pre ++ [c], ∃ again ∈ pre ++ [c], old.inv = again.inv ∧ again.inv ≠ d.inv ∧
    c.nNow ≤ old.nNow + 15 * 60 ∧ old.nNow + 15 * 60 < d.nNow ∧ d.nNow ≤ again.nNow + 15 * 60

/-- **Relayed data stays available exactly if nothing relayed again expires
by its first relay.** In every run of calls at non-decreasing times, all
items of the last fifteen minutes are in the map after each call if and
only if at no call an entry expires whose item has been relayed again
within them and is not the one relayed by that call. -/
theorem available_iff (calls : List RelayCall) (h : InTime calls) :
    Available calls ↔ ∀ pre c d, pre ++ [c, d] <+: calls → ¬ Forgets pre c d := by
  have hsplit : ∀ (pre : List RelayCall) (c d : RelayCall), pre ++ [c, d] = (pre ++ [c]) ++ [d] := by
    intro pre c d
    rw [List.append_assoc]
    rfl
  constructor
  · rintro havail pre c d hpre ⟨old, hold, again, hagain, hinv, hne, hleft, hgone, hrecent⟩
    have hmem := havail (pre ++ [c]) d (hsplit pre c d ▸ hpre) again
      (List.mem_append_left _ hagain) hrecent
    rw [← hsplit] at hmem
    rcases (mem_after_append (h.mono hpre)).1 hmem.1 with heq | ⟨-, hnone⟩
    · exact hne heq
    · exact hnone old hold hleft hgone hinv
  · intro hnone pre
    induction pre using List.reverseRecOn with
    | nil =>
      intro d _ e he _
      obtain rfl : e = d := List.mem_singleton.1 he
      exact answers_of_mem mem_after_self
    | append_singleton pre c ih =>
      intro d hpre e he hrecent
      rcases List.mem_append.1 he with he | he
      swap
      · obtain rfl : e = d := List.mem_singleton.1 he
        exact answers_of_mem mem_after_self
      have hle : c.nNow ≤ d.nNow := (h.mono hpre).le (by simp)
      have hheld := (ih c ((List.prefix_append _ _).trans hpre) e he (hle.trans hrecent)).1
      refine answers_of_mem ?_
      rw [← hsplit] at hpre ⊢
      rw [mem_after_append (h.mono hpre)]
      by_cases heq : e.inv = d.inv
      · exact .inl heq
      · refine .inr ⟨hheld, fun old hold hleft hgone hinv => ?_⟩
        exact hnone pre c d hpre ⟨old, hold, e, he, hinv, heq, hleft, hgone, hrecent⟩

namespace RelayExample

/-- A wallet's transaction, relayed again after ten minutes. -/
def twice : List RelayCall := [⟨0, ⟨msgTx, 1⟩, [1]⟩, ⟨600, ⟨msgTx, 1⟩, [1]⟩]

/-- Another one, a quarter of an hour after the first. -/
def other : RelayCall := ⟨901, ⟨msgTx, 2⟩, [2]⟩

end RelayExample

open RelayExample in
/-- Two relays alone lose nothing. -/
theorem available_iff_twice : Available twice := by
  refine (available_iff twice (by unfold InTime; decide)).2 ?_
  rintro pre c d ⟨suf, heq⟩ ⟨old, hold, again, hagain, -, hne, -⟩
  have hlen := congrArg List.length heq
  have hone : twice.length = 2 := rfl
  simp only [List.length_append, List.length_cons, List.length_nil, hone] at hlen
  obtain rfl : pre = [] := List.length_eq_zero_iff.1 (by omega)
  obtain rfl : suf = [] := List.length_eq_zero_iff.1 (by omega)
  rw [List.nil_append, List.append_nil] at heq
  unfold twice at heq
  simp only [List.cons.injEq, and_true] at heq
  obtain ⟨rfl, rfl⟩ := heq
  rw [List.nil_append, List.mem_singleton] at hagain
  rw [hagain] at hne
  exact hne rfl

open RelayExample in
/-- The transaction relayed five minutes ago is gone. -/
theorem not_available : InTime (twice ++ [other]) ∧ ¬ Available (twice ++ [other]) := by
  refine ⟨by unfold InTime; decide, fun havail => ?_⟩
  have hgone : (after (twice ++ [other])).mapRelay.contains ⟨msgTx, 1⟩ = false := by decide +kernel
  have hheld := havail twice other (List.prefix_refl _) ⟨600, ⟨msgTx, 1⟩, [1]⟩ (by decide) (by decide)
  rw [Answers, Std.ExtTreeMap.mem_iff_contains, hgone] at hheld
  exact absurd hheld.1 (by simp)

end RelayMemory

end CryptoBullion
