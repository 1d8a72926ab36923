import CryptoBullion.Model.ListTransactions
/-!
# Pages of a transaction list

The loop of `listtransactions` takes whole items, so what it has is a front
part of the list with every entry. Where the sum of the counts fits an
`int` the part is long enough, and the page is cut out of it exactly; where
it does not, the loop stops at the newest item.
-/

namespace CryptoBullion

namespace Listing

variable {ret more full page : List Entry} {nCount nFrom : ℤ}

/-! ## Order -/

/-- **The items stand in the order of their positions**, all of them. -/
theorem orderedTxItems_spec (w : CWallet) (strAccount : String) :
    (w.orderedTxItems strAccount).Perm (w.items strAccount) ∧
      (w.orderedTxItems strAccount).Pairwise fun a b => a.nOrderPos ≤ b.nOrderPos := by
  have hinsert : ∀ (l : List TxPair) (item : TxPair),
      l.Pairwise (fun a b => a.nOrderPos ≤ b.nOrderPos) →
        (insertOrdered l item).Pairwise fun a b => a.nOrderPos ≤ b.nOrderPos := by
    intro l item hl
    induction l with
    | nil => exact List.pairwise_singleton _ _
    | cons first rest ih =>
      obtain ⟨hfirst, hrest⟩ := List.pairwise_cons.1 hl
      unfold insertOrdered
      rw [List.orderedInsert_cons]
      split_ifs with hlt
      · refine List.pairwise_cons.2 ⟨fun b hb => ?_, hl⟩
        rcases List.mem_cons.1 hb with rfl | hb
        · exact hlt.le
        · exact hlt.le.trans (hfirst b hb)
      · refine List.pairwise_cons.2 ⟨fun b hb => ?_, ih hrest⟩
        rcases List.mem_cons.1 ((List.perm_orderedInsert _ item rest).mem_iff.1 hb) with rfl | hb
        · exact not_lt.1 hlt
        · exact hfirst b hb
  have hfold : ∀ l txOrdered : List TxPair,
      txOrdered.Pairwise (fun a b => a.nOrderPos ≤ b.nOrderPos) →
        (l.foldl insertOrdered txOrdered).Perm (txOrdered ++ l) ∧
          (l.foldl insertOrdered txOrdered).Pairwise fun a b => a.nOrderPos ≤ b.nOrderPos := by
    intro l
    induction l with
    | nil => exact fun txOrdered h => ⟨by rw [List.append_nil]; exact List.Perm.refl _, h⟩
    | cons item l ih =>
      intro txOrdered h
      obtain ⟨hperm, hsorted⟩ := ih _ (hinsert txOrdered item h)
      refine ⟨hperm.trans ?_, hsorted⟩
      exact ((List.perm_orderedInsert _ item txOrdered).append_right l).trans
        List.perm_middle.symm
  exact hfold (w.items strAccount) [] List.Pairwise.nil

/-! ## Collecting -/

section
variable {entries : TxPair → Except Failure (List Entry)} {items : List TxPair}
variable {lists : List (List Entry)}

/-- **What the loop has collected** when it stops: the entries of some of the
items. It has stopped because there are enough, or at the last item, and at
no item before that. -/
theorem collect_spec (h : items.mapM entries = .ok lists) (ret : List Entry) :
    ∃ front rest, lists = front ++ rest ∧
      collect entries nCount nFrom ret items = .ok (ret ++ front.flatten) ∧
      (front ≠ [] ∧ toInt32 (nCount + nFrom) ≤ toInt32 (ret.length + front.flatten.length : ℕ) ∨
        rest = []) ∧
      ∀ pre suf, front = pre ++ suf → pre ≠ [] → suf ≠ [] →
        toInt32 (ret.length + pre.flatten.length : ℕ) < toInt32 (nCount + nFrom) := by
  induction items generalizing lists ret with
  | nil =>
    obtain rfl : [] = lists := by simpa [pure, Except.pure] using h
    refine ⟨[], [], rfl, by rw [collect, List.flatten_nil, List.append_nil], .inr rfl, ?_⟩
    intro pre suf heq hpre
    exact absurd (List.append_eq_nil_iff.1 heq.symm).1 hpre
  | cons item items ih =>
    rw [List.mapM_cons] at h
    obtain ⟨more, hmore, h⟩ := except_bind_eq_ok.1 h
    obtain ⟨lists', hlists', h⟩ := except_bind_eq_ok.1 h
    obtain rfl : more :: lists' = lists := by simpa [pure, Except.pure] using h
    have hturn : collect entries nCount nFrom ret (item :: items) =
        if toInt32 (nCount + nFrom) ≤ toInt32 (ret ++ more).length then .ok (ret ++ more)
        else collect entries nCount nFrom (ret ++ more) items := by
      have hbind : ∀ f : List Entry → Except Failure (List Entry),
          (Except.ok more >>= f) = f more := fun f => rfl
      rw [collect, hmore, hbind]
    by_cases hstop : toInt32 (nCount + nFrom) ≤ toInt32 (ret ++ more).length
    · refine ⟨[more], lists', rfl, ?_, .inl ⟨List.cons_ne_nil _ _, ?_⟩, ?_⟩
      · rw [hturn, if_pos hstop, List.flatten_singleton]
      · rw [List.length_append] at hstop
        rwa [List.flatten_singleton]
      · intro pre suf heq hpre hsuf
        obtain ⟨x, pre, rfl⟩ := List.exists_cons_of_ne_nil hpre
        have htail := (List.append_eq_nil_iff.1 (List.cons.inj heq).2.symm).2
        exact absurd htail hsuf
    · obtain ⟨front, rest, rfl, hcollect, hend, hfirst⟩ := ih hlists' (ret ++ more)
      refine ⟨more :: front, rest, rfl, ?_, ?_, ?_⟩
      · rw [hturn, if_neg hstop, hcollect, List.flatten_cons, List.append_assoc]
      · refine hend.imp_left fun hbreak => ⟨List.cons_ne_nil _ _, ?_⟩
        rw [List.flatten_cons, List.length_append, ← Nat.add_assoc, ← List.length_append]
        exact hbreak.2
      · intro pre suf heq hpre hsuf
        obtain ⟨x, pre, rfl⟩ := List.exists_cons_of_ne_nil hpre
        obtain ⟨rfl, hfront⟩ := List.cons.inj heq
        rw [List.flatten_cons, List.length_append, ← Nat.add_assoc, ← List.length_append]
        rcases eq_or_ne pre [] with rfl | hne
        · simpa using not_le.1 hstop
        · exact hfirst pre suf hfront hne hsuf

end

/-! ## Cutting -/

theorem advance_eq_ok {n : ℤ} {i : ℕ} :
    advance n ret = .ok i ↔ (i : ℤ) = n ∧ n ≤ ret.length := by
  unfold advance
  constructor
  · intro h
    split_ifs at h with hrange
    obtain rfl := Except.ok.inj h
    exact ⟨Int.toNat_of_nonneg hrange.1, hrange.2⟩
  · rintro ⟨rfl, hle⟩
    rw [if_pos ⟨by omega, hle⟩, Int.toNat_natCast]

/-- The counts that the page is cut with. -/
def pageFrom (size nFrom : ℤ) : ℤ := if size < nFrom then size else nFrom

def pageCount (length : ℕ) (nFrom nCount : ℤ) : ℤ :=
  if toInt32 length < toInt32 (nFrom + nCount) then toInt32 (length - nFrom) else nCount

/-- **A page is cut** between two places of the array that are in order. -/
theorem cutPage_eq_ok_iff : cutPage nCount nFrom ret = .ok page ↔
    ∃ first last : ℕ, (first : ℤ) = pageFrom (toInt32 ret.length) nFrom ∧
      (last : ℤ) = toInt32 (pageFrom (toInt32 ret.length) nFrom +
        pageCount ret.length (pageFrom (toInt32 ret.length) nFrom) nCount) ∧
      first ≤ last ∧ last ≤ ret.length ∧ page = ((ret.take last).drop first).reverse := by
  have hunfold : cutPage nCount nFrom ret =
      (advance (pageFrom (toInt32 ret.length) nFrom) ret).bind fun first =>
        (advance (toInt32 (pageFrom (toInt32 ret.length) nFrom +
          pageCount ret.length (pageFrom (toInt32 ret.length) nFrom) nCount)) ret).bind fun last =>
            (advance first (ret.take last)).bind fun first =>
              .ok ((ret.take last).drop first).reverse := rfl
  rw [hunfold]
  constructor
  · intro h
    obtain ⟨first, hfirst, h₁⟩ := except_bind_eq_ok.1 h
    obtain ⟨last, hlast, h₂⟩ := except_bind_eq_ok.1 h₁
    obtain ⟨first', hfirst', h₃⟩ := except_bind_eq_ok.1 h₂
    obtain ⟨hfrom, hfromle⟩ := advance_eq_ok.1 hfirst
    obtain ⟨hto, htole⟩ := advance_eq_ok.1 hlast
    obtain ⟨hsame, hle⟩ := advance_eq_ok.1 hfirst'
    rw [List.length_take] at hle
    have hplace : first' = first := by exact_mod_cast hsame
    rw [hplace] at h₃
    exact ⟨first, last, hfrom, hto, by omega, by omega, (Except.ok.inj h₃).symm⟩
  · rintro ⟨first, last, hfrom, hto, hle, htole, rfl⟩
    refine except_bind_eq_ok.2 ⟨first, advance_eq_ok.2 ⟨hfrom, by omega⟩, ?_⟩
    refine except_bind_eq_ok.2 ⟨last, advance_eq_ok.2 ⟨hto, by omega⟩, ?_⟩
    refine except_bind_eq_ok.2 ⟨first, advance_eq_ok.2 ⟨rfl, ?_⟩, rfl⟩
    rw [List.length_take]
    omega

/-- Where the page ends: the counts are added as `int`s, and what is more than
there is comes down to it. -/
theorem pageLast_eq {length : ℕ} {first : ℤ} (hlow : -2147483648 ≤ first)
    (hfirst : first ≤ toInt32 length) (hnear : toInt32 length - first < 2147483648)
    (hcount : 0 ≤ nCount ∧ nCount < 2147483648) :
    toInt32 (first + pageCount length first nCount) =
      if first + nCount < 2147483648 then min (first + nCount) (toInt32 length)
      else first + nCount - 4294967296 := by
  have hlt : toInt32 length < 2147483648 := toInt32_le
  have hrest : toInt32 (length - first) = toInt32 length - first := by
    rw [sub_eq_add_neg, ← toInt32_toInt32_add, ← sub_eq_add_neg]
    exact toInt32_eq_self_iff.2 ⟨by omega, hnear⟩
  unfold pageCount
  rw [hrest]
  generalize toInt32 length = size at *
  by_cases hfits : first + nCount < 2147483648
  · have hsum : toInt32 (first + nCount) = first + nCount :=
      toInt32_eq_self_iff.2 ⟨by omega, hfits⟩
    rw [hsum, if_pos hfits]
    split_ifs with hmore
    · rw [min_eq_right hmore.le, show first + (size - first) = size by omega]
      exact toInt32_eq_self_iff.2 ⟨by omega, hlt⟩
    · rw [min_eq_left (not_lt.1 hmore), hsum]
  · have hsum : toInt32 (first + nCount) = first + nCount - 4294967296 := by
      unfold toInt32
      omega
    rw [hsum, if_neg hfits, if_neg (by omega), hsum]

/-- **Where the page is the one asked for**: with `T` entries in all, of which
the array has a front part. -/
theorem cutPage_iff (hfull : full = ret ++ more) (hcount : 0 ≤ nCount ∧ nCount < 2147483648)
    (hfrom : 0 ≤ nFrom ∧ nFrom < 2147483648) :
    cutPage nCount nFrom ret = .ok ((full.drop nFrom.toNat).take nCount.toNat).reverse ↔
      toInt32 ret.length < nFrom ∧ 0 ≤ toInt32 ret.length ∧
          toInt32 ret.length + nCount < 2147483648 ∧ (nCount = 0 ∨ (full.length : ℤ) ≤ nFrom) ∨
        nFrom ≤ toInt32 ret.length ∧ nFrom + nCount < 2147483648 ∧
          (nFrom + nCount ≤ toInt32 ret.length ∨ (full.length : ℤ) = toInt32 ret.length) := by
  have htotal : full.length = ret.length + more.length := by rw [hfull, List.length_append]
  have hsize : ∀ first last : ℕ, ((ret.take last).drop first).reverse =
      ((full.drop nFrom.toNat).take nCount.toNat).reverse → last ≤ ret.length →
        last - first = min nCount.toNat (full.length - nFrom.toNat) := by
    intro first last heq hle
    have hlen := congrArg List.length heq
    simp only [List.length_reverse, List.length_drop, List.length_take] at hlen
    omega
  have hpage : ∀ first last : ℕ, first ≤ last → last ≤ ret.length →
      last - first = min nCount.toNat (full.length - nFrom.toNat) →
        (first = nFrom.toNat ∨ last = first) →
          ((full.drop nFrom.toNat).take nCount.toNat).reverse =
            ((ret.take last).drop first).reverse := by
    intro first last hle hlast hlen hplace
    congr 1
    rcases hplace with rfl | rfl
    · have htake : (full.drop nFrom.toNat).take nCount.toNat =
          (full.drop nFrom.toNat).take (last - nFrom.toNat) := by
        rw [hlen, List.take_eq_take_iff, List.length_drop]
        omega
      have hfront : ret.take last = full.take last := by
        rw [hfull, List.take_append_of_le_length hlast]
      rw [htake, hfront, List.drop_take]
    · have hleft : (full.drop nFrom.toNat).take nCount.toNat = [] := by
        rw [← List.length_eq_zero_iff, List.length_take, List.length_drop]
        omega
      have hright : (ret.take last).drop last = [] :=
        List.drop_eq_nil_of_le (by rw [List.length_take]; omega)
      rw [hleft, hright]
  have hle : toInt32 ret.length ≤ ret.length := by
    unfold toInt32
    omega
  have hlow : -2147483648 ≤ toInt32 ret.length := by
    unfold toInt32
    omega
  have hlt : toInt32 ret.length < 2147483648 := toInt32_le
  rw [cutPage_eq_ok_iff]
  by_cases hshort : toInt32 ret.length < nFrom
  · -- nothing is left where the page begins
    have hfirst : pageFrom (toInt32 ret.length) nFrom = toInt32 ret.length := if_pos hshort
    rw [hfirst, pageLast_eq hlow le_rfl (by omega) hcount]
    generalize toInt32 ret.length = size at *
    constructor
    · rintro ⟨first, last, hf, hl, hord, hlast, heq⟩
      have hlen := hsize first last heq.symm hlast
      clear hsize hpage heq hfull
      left
      split_ifs at hl <;> omega
    · rintro (⟨-, hpos, hfits, hnone⟩ | ⟨hle', -⟩)
      · refine ⟨size.toNat, size.toNat, Int.toNat_of_nonneg hpos, ?_, le_rfl, by omega, ?_⟩
        · rw [if_pos hfits]
          omega
        · exact hpage _ _ le_rfl (by omega) (by omega) (.inr rfl)
      · omega
  · have hfirst : pageFrom (toInt32 ret.length) nFrom = nFrom := if_neg hshort
    rw [hfirst, pageLast_eq (by omega) (not_lt.1 hshort) (by omega) hcount]
    generalize toInt32 ret.length = size at *
    constructor
    · rintro ⟨first, last, hf, hl, hord, hlast, heq⟩
      have hlen := hsize first last heq.symm hlast
      clear hsize hpage heq hfull
      right
      split_ifs at hl <;> omega
    · rintro (⟨hshort', -⟩ | ⟨hle', hfits, hends⟩)
      · omega
      · refine ⟨nFrom.toNat, (min (nFrom + nCount) size).toNat, Int.toNat_of_nonneg hfrom.1, ?_,
          by omega, by omega, ?_⟩
        · rw [if_pos hfits]
          omega
        · exact hpage _ _ (by omega) (by omega) (by omega) (.inl rfl)

/-! ## Pages -/

/-- **Where pages are exact**, of the numbers of entries that the items have,
the newest first. The counts fit an `int` together, and so does what is
counted up; or there is nothing so far back, and the newest item has room
beside the page. -/
def PagesExactly (sizes : List ℕ) (nCount nFrom : ℤ) : Prop :=
  nFrom + nCount < 2147483648 ∧
      ((sizes.sum : ℤ) < 2147483648 ∨
        (∃ front rest, sizes = front ++ rest ∧ front ≠ [] ∧ nFrom + nCount ≤ toInt32 front.sum) ∨
        nCount = 0 ∧ 0 ≤ toInt32 sizes.sum) ∨
    2147483648 ≤ nFrom + nCount ∧ (sizes.sum : ℤ) ≤ nFrom ∧
      (sizes.headD 0 : ℤ) + nCount < 2147483648

theorem length_flatten_eq (lists : List (List Entry)) :
    lists.flatten.length = (lists.map List.length).sum := List.length_flatten

/-- **Pages are exact** under that condition, and under no other. -/
theorem pagesExactly_iff {lists front rest : List (List Entry)}
    (hcount : 0 ≤ nCount ∧ nCount < 2147483648) (hfrom : 0 ≤ nFrom ∧ nFrom < 2147483648)
    (hlists : lists = front ++ rest)
    (hend : front ≠ [] ∧ toInt32 (nCount + nFrom) ≤ toInt32 (front.flatten.length : ℕ) ∨ rest = [])
    (hbefore : ∀ pre suf, front = pre ++ suf → pre ≠ [] → suf ≠ [] →
      toInt32 (pre.flatten.length : ℕ) < toInt32 (nCount + nFrom)) :
    cutPage nCount nFrom front.flatten =
        .ok ((lists.flatten.drop nFrom.toNat).take nCount.toNat).reverse ↔
      PagesExactly (lists.map List.length) nCount nFrom := by
  have hfull : lists.flatten = front.flatten ++ rest.flatten := by rw [hlists, List.flatten_append]
  have htotal : lists.flatten.length = front.flatten.length + rest.flatten.length := by
    rw [hfull, List.length_append]
  have hsmall : front.flatten.length < 2147483648 →
      toInt32 (front.flatten.length : ℕ) = (front.flatten.length : ℕ) := fun h =>
    toInt32_eq_self_iff.2 (by omega)
  rw [cutPage_iff hfull hcount hfrom]
  unfold PagesExactly
  rw [← length_flatten_eq]
  by_cases hfits : nFrom + nCount < 2147483648
  · have hsum : toInt32 (nCount + nFrom) = nFrom + nCount := by
      rw [add_comm]
      exact toInt32_eq_self_iff.2 (by omega)
    rw [hsum] at hend hbefore
    by_cases hbreak : front ≠ [] ∧ nFrom + nCount ≤ toInt32 (front.flatten.length : ℕ)
    · -- the loop has what was asked for
      refine iff_of_true (.inr ⟨by omega, hfits, .inl hbreak.2⟩)
        (.inl ⟨hfits, .inr (.inl ⟨front.map List.length, rest.map List.length, ?_, ?_, ?_⟩)⟩)
      · rw [hlists, List.map_append]
      · simpa using hbreak.1
      · rw [← length_flatten_eq]
        exact hbreak.2
    · obtain rfl := hend.resolve_left hbreak
      rw [List.flatten_nil, List.length_nil, Nat.add_zero] at htotal
      rw [htotal]
      -- no front part has enough
      have hnone : ¬ ∃ front' rest', lists.map List.length = front' ++ rest' ∧ front' ≠ [] ∧
          nFrom + nCount ≤ toInt32 (front'.sum : ℕ) := by
        rintro ⟨front', rest', heq, hne, hle⟩
        rw [hlists, List.append_nil] at heq
        obtain ⟨pre, suf, rfl, rfl, rfl⟩ := List.map_eq_append_iff.1 heq
        rw [← length_flatten_eq] at hle
        rcases eq_or_ne suf [] with rfl | hsuf
        · rw [List.append_nil] at hbreak
          exact hbreak ⟨by simpa using hne, hle⟩
        · exact absurd (hbefore pre suf rfl (by simpa using hne) hsuf) (not_lt.2 hle)
      rcases Nat.lt_or_ge front.flatten.length 2147483648 with hlt | hge
      · rw [hsmall hlt]
        omega
      · have hne : front ≠ [] := by
          rintro rfl
          simp at hge
        have hless := not_le.1 fun h => hbreak ⟨hne, h⟩
        have hlt : toInt32 (front.flatten.length : ℕ) < 2147483648 := toInt32_le
        generalize toInt32 (front.flatten.length : ℕ) = size at *
        constructor
        · intro h
          exact .inl ⟨hfits, .inr (.inr (by omega))⟩
        · rintro (⟨-, h | h | h⟩ | ⟨h, -⟩)
          · omega
          · exact absurd h hnone
          · omega
          · omega
  · have hsum : toInt32 (nCount + nFrom) = nFrom + nCount - 4294967296 := by
      unfold toInt32
      omega
    rw [hsum] at hend hbefore
    rcases eq_or_ne front [] with rfl | hne
    · -- there are no items
      obtain rfl := hend.resolve_left fun h => h.1 rfl
      have hzero : toInt32 (([] : List (List Entry)).flatten.length : ℕ) = 0 := rfl
      rw [hzero, htotal, hlists]
      simp only [List.flatten_nil, List.length_nil, List.append_nil, List.map_nil, List.headD_nil]
      omega
    · obtain ⟨newest, older, rfl⟩ := List.exists_cons_of_ne_nil hne
      have hhead : (lists.map List.length).headD 0 = newest.length := by
        rw [hlists]
        rfl
      have hnewest : newest.length ≤ (newest :: older).flatten.length := by
        rw [List.flatten_cons, List.length_append]
        omega
      rw [hhead]
      constructor
      · intro h
        have hle : (lists.flatten.length : ℤ) ≤ nFrom ∧
            toInt32 ((newest :: older).flatten.length : ℕ) + nCount < 2147483648 := by omega
        rw [hsmall (by omega)] at hle
        exact .inr ⟨by omega, hle.1, by omega⟩
      · rintro (⟨h, -⟩ | ⟨-, hle, hroom⟩)
        · exact absurd h hfits
        · -- the loop has stopped at the newest item
          have hone : older = [] := by
            by_contra hmore
            have hless := hbefore [newest] older rfl (List.cons_ne_nil _ _) hmore
            rw [List.flatten_singleton, toInt32_eq_self_iff.2 (by omega)] at hless
            omega
          rw [hsmall (by omega)]
          rw [hone, List.flatten_singleton] at htotal ⊢
          left
          omega

/-- **`listtransactions` pages exactly**: the items are all those of the wallet
in order, and the result is the page that was asked for of the list with the
entries of each, from the newest on, where the condition holds and nowhere
else. -/
theorem listtransactions_pages [P : Platform] (w : CWallet) (chain : WalletChain)
    (strAccount : String) (nCount nFrom : ℤ) (lists : List (List Entry))
    (hcount : 0 ≤ nCount ∧ nCount < 2147483648) (hfrom : 0 ≤ nFrom ∧ nFrom < 2147483648)
    (hlists : (w.orderedTxItems strAccount).reverse.mapM (entriesOf w chain strAccount) =
      .ok lists) :
    (w.orderedTxItems strAccount).Perm (w.items strAccount) ∧
    ((w.orderedTxItems strAccount).Pairwise fun a b => a.nOrderPos ≤ b.nOrderPos) ∧
    (listtransactions w chain strAccount nCount nFrom =
        .ok ((lists.flatten.drop nFrom.toNat).take nCount.toNat).reverse ↔
      PagesExactly (lists.map List.length) nCount nFrom) := by
  obtain ⟨hperm, hsorted⟩ := orderedTxItems_spec w strAccount
  refine ⟨hperm, hsorted, ?_⟩
  obtain ⟨front, rest, heq, hcollect, hend, hbefore⟩ := collect_spec hlists []
  rw [List.nil_append] at hcollect
  have hrun : listtransactions w chain strAccount nCount nFrom =
      cutPage nCount nFrom front.flatten := by
    unfold listtransactions
    rw [if_neg (by omega), if_neg (by omega), hcollect]
    rfl
  rw [hrun]
  simp only [List.length_nil, Nat.zero_add] at hend hbefore
  exact pagesExactly_iff hcount hfrom heq hend hbefore

namespace TwoMoves

/-- Moves between two accounts, there and back. -/
def older : CAccountingEntry := ⟨"a", -5, 1, "b", "", 0⟩

def newer : CAccountingEntry := ⟨"a", 5, 2, "b", "", 1⟩

/-- The wallet that has these. -/
def wallet : CWallet where
  wallet := ⟨∅, ⟨[], []⟩, [], []⟩
  nOrderPos _ := 0
  acentries := [older, newer]

def chain : WalletChain := ⟨100, 1000, fun _ => 0, fun _ => Int.le_refl 0⟩

/-- **All that is behind the newest entry** is asked for, and an iterator
leaves the array: one more than the largest count wraps. -/
theorem listtransactions_all_but_newest :
    letI := Platform.toy
    (wallet.orderedTxItems "a").reverse.mapM (entriesOf wallet chain "a") =
      .ok [[.move newer], [.move older]] ∧
    listtransactions wallet chain "a" 2147483647 1 = .error (.crash "iterator out of range") := by
  decide

/-- The page of one entry behind the newest. -/
theorem listtransactions_pages_second :
    letI := Platform.toy
    listtransactions wallet chain "a" 1 1 = .ok [.move older] :=
  letI := Platform.toy
  (listtransactions_pages wallet chain "a" 1 1 [[.move newer], [.move older]] (by decide)
    (by decide) (by decide)).2.2.2 (.inl ⟨by decide, .inl (by decide)⟩)

end TwoMoves

end Listing

end CryptoBullion
