import CryptoBullion.Common.Handouts
import CryptoBullion.Model.OrderPos
/-!
# Who is given which position

`ReorderTransactions` goes through the transactions and the entries of the
default account by time, and hands out places among the positions there
are. Nobody who had a position loses his turn, and a second run changes
nothing. But a place can be one that somebody moves to, since what is
handed out is compared with positions that have not moved; and the entries
of other accounts are not looked at.
-/

namespace CryptoBullion

namespace Reorder

open Handouts

variable {w w' : CWallet} {s s' : State} {id id' : ItemId} {item : Item} {l : List Item} {p q : ℤ}
variable {fWritten : ItemId → Bool} {hash : Uint256} {key : String × ℕ}

namespace CWallet

/-- The position of an item. -/
def posOf (w : CWallet) : ItemId → Option ℤ
  | .tx hash => (w.mapWallet[hash]?).map CWalletTx.nOrderPos
  | .acentry key => (w.acentries.find? fun entry => entry.key = key).map CAccountingEntry.nOrderPos

/-- An item has its position set. -/
def setPos (w : CWallet) (id : ItemId) (nOrderPos : ℤ) : CWallet :=
  match id with
  | .tx hash => w.setTxPos hash nOrderPos
  | .acentry key => w.setEntryPos key nOrderPos

theorem posOf_setTxPos : (w.setTxPos hash p).posOf id =
    if id = .tx hash then (w.posOf id).map fun _ => p else w.posOf id := by
  cases id with
  | tx hash' =>
    simp only [posOf, setTxPos, Std.ExtTreeMap.getElem?_modify, Std.compare_eq_iff_eq,
      ItemId.tx.injEq, eq_comm (a := hash)]
    by_cases heq : hash' = hash
    · rw [if_pos heq, if_pos heq, heq, Option.map_map, Option.map_map]
      rfl
    · rw [if_neg heq, if_neg heq]
  | acentry key => rw [if_neg (by simp)]; rfl

theorem posOf_setEntryPos : (w.setEntryPos key p).posOf id =
    if id = .acentry key then (w.posOf id).map fun _ => p else w.posOf id := by
  cases id with
  | tx hash => rw [if_neg (by simp)]; rfl
  | acentry key' =>
    have hsame : (fun entry : CAccountingEntry => decide (entry.key = key')) ∘
        (fun entry => if entry.key = key then { entry with nOrderPos := p } else entry) =
        fun entry => decide (entry.key = key') := by
      funext entry
      dsimp only [Function.comp_apply]
      split_ifs <;> rfl
    simp only [posOf, setEntryPos, ItemId.acentry.injEq, List.find?_map, hsame]
    rcases hfind : w.acentries.find? (fun entry => decide (entry.key = key')) with _ | entry
    · simp [hfind]
    · have hkey : entry.key = key' := by simpa using List.find?_some hfind
      rw [hfind, Option.map_some, Option.map_some, Option.map_some, hkey]
      split_ifs <;> rfl

theorem posOf_setPos : (w.setPos id' p).posOf id =
    if id = id' then (w.posOf id).map fun _ => p else w.posOf id := by
  cases id' with
  | tx hash => exact posOf_setTxPos
  | acentry key => exact posOf_setEntryPos

theorem nOrderPosNext_setPos : (w.setPos id p).nOrderPosNext = w.nOrderPosNext := by
  cases id <;> rfl

/-! ## By time -/

theorem perm_insertByTime : (insertByTime item l).Perm (item :: l) := by
  induction l with
  | nil => exact List.Perm.refl _
  | cons first rest ih =>
    unfold insertByTime
    split_ifs
    · exact List.Perm.refl _
    · exact (ih.cons first).trans (List.Perm.swap item first rest)

/-- **By time** the same items stand in another order. -/
theorem perm_txByTime : w.txByTime.Perm w.items := by
  have hfold : ∀ l txByTime : List Item,
      (l.foldl (fun txByTime item => insertByTime item txByTime) txByTime).Perm (txByTime ++ l) := by
    intro l
    induction l with
    | nil => exact fun txByTime => by rw [List.append_nil]; exact List.Perm.refl _
    | cons item l ih =>
      intro txByTime
      rw [List.foldl_cons]
      refine (ih _).trans ?_
      exact (perm_insertByTime.append_right l).trans List.perm_middle.symm
  exact hfold w.items []

/-- The items that are gone through: the transactions, and the entries of
the default account. -/
def Listed (w : CWallet) : ItemId → Prop
  | .tx hash => hash ∈ w.mapWallet
  | .acentry key => key.1 = "" ∧ ∃ entry ∈ w.acentries, entry.key = key

theorem find?_eq_some_iff {entry : CAccountingEntry} :
    (w.acentries.find? fun entry => decide (entry.key = key)) = some entry ↔
      entry ∈ w.acentries ∧ entry.key = key := by
  constructor
  · exact fun h => ⟨List.mem_of_find?_eq_some h, by simpa using List.find?_some h⟩
  · rintro ⟨hmem, rfl⟩
    rcases hfind : w.acentries.find? (fun e => decide (e.key = entry.key)) with _ | found
    · have := List.find?_eq_none.1 hfind entry hmem
      simp at this
    · have hkey : found.key = entry.key := by simpa using List.find?_some hfind
      rw [hfind, List.inj_on_of_nodup_map w.nodup_acentries (List.mem_of_find?_eq_some hfind) hmem hkey]

/-- **An item comes with its position.** -/
theorem posOf_of_mem (h : item ∈ w.txByTime) : w.posOf item.id = some item.nOrderPos := by
  rcases List.mem_append.1 (perm_txByTime.mem_iff.1 h) with h | h
  · obtain ⟨⟨hash, wtx⟩, hwtx, rfl⟩ := List.mem_map.1 h
    rw [Std.ExtTreeMap.mem_toList_iff_getElem?_eq_some] at hwtx
    exact congrArg (Option.map CWalletTx.nOrderPos) hwtx
  · obtain ⟨entry, hentry, rfl⟩ := List.mem_map.1 h
    exact congrArg (Option.map CAccountingEntry.nOrderPos)
      (find?_eq_some_iff.2 ⟨(List.mem_filter.1 hentry).1, rfl⟩)

theorem listed_iff : w.Listed id ↔ id ∈ w.txByTime.map Item.id := by
  rw [(perm_txByTime.map Item.id).mem_iff]
  unfold items
  rw [List.map_append, List.mem_append, List.map_map, List.map_map]
  cases id with
  | tx hash =>
    constructor
    · intro h
      obtain ⟨wtx, hwtx⟩ := Option.isSome_iff_exists.1 (Std.ExtTreeMap.mem_iff_isSome_getElem?.1 h)
      exact .inl (List.mem_map.2
        ⟨(hash, wtx), Std.ExtTreeMap.mem_toList_iff_getElem?_eq_some.2 hwtx, rfl⟩)
    · rintro (h | h)
      · obtain ⟨⟨hash', wtx⟩, hwtx, heq⟩ := List.mem_map.1 h
        obtain rfl : hash' = hash := ItemId.tx.inj heq
        rw [Std.ExtTreeMap.mem_toList_iff_getElem?_eq_some] at hwtx
        exact Std.ExtTreeMap.mem_iff_isSome_getElem?.2 (by rw [hwtx]; rfl)
      · obtain ⟨entry, -, heq⟩ := List.mem_map.1 h
        exact absurd heq (by simp)
  | acentry key =>
    constructor
    · rintro ⟨hdefault, entry, hentry, rfl⟩
      exact .inr (List.mem_map.2
        ⟨entry, List.mem_filter.2 ⟨hentry, decide_eq_true hdefault⟩, rfl⟩)
    · rintro (h | h)
      · obtain ⟨p, -, heq⟩ := List.mem_map.1 h
        exact absurd heq (by simp)
      · obtain ⟨entry, hentry, heq⟩ := List.mem_map.1 h
        obtain rfl : entry.key = key := ItemId.acentry.inj heq
        obtain ⟨hmem, hdefault⟩ := List.mem_filter.1 hentry
        exact ⟨of_decide_eq_true hdefault, entry, hmem, rfl⟩

/-- And each once. -/
theorem nodup_ids : (w.txByTime.map Item.id).Nodup := by
  rw [(perm_txByTime.map Item.id).nodup_iff]
  unfold items
  rw [List.map_append, List.map_map, List.map_map]
  refine List.Nodup.append ?_ ?_ ?_
  · have hkeys : w.mapWallet.keys.Nodup :=
      Std.ExtTreeMap.distinct_keys.imp fun h heq => h (by rw [heq, Std.compare_eq_iff_eq])
    rw [← Std.ExtTreeMap.map_fst_toList_eq_keys] at hkeys
    have hmap : w.mapWallet.toList.map (Item.id ∘ fun p =>
        (⟨.tx p.1, p.2.nTimeReceived, p.2.nOrderPos⟩ : Item)) =
        (w.mapWallet.toList.map Prod.fst).map ItemId.tx := by
      rw [List.map_map]
      rfl
    rw [hmap]
    exact hkeys.map fun a b h => ItemId.tx.inj h
  · have hmap : (w.listAccountCreditDebit "").map (Item.id ∘ fun entry =>
        (⟨.acentry entry.key, entry.nTime, entry.nOrderPos⟩ : Item)) =
        ((w.listAccountCreditDebit "").map CAccountingEntry.key).map ItemId.acentry := by
      rw [List.map_map]
      rfl
    rw [hmap]
    refine List.Nodup.map (fun a b h => ItemId.acentry.inj h) ?_
    exact w.nodup_acentries.sublist (List.filter_sublist.map _)
  · intro id h₁ h₂
    obtain ⟨p, -, rfl⟩ := List.mem_map.1 h₁
    obtain ⟨entry, -, heq⟩ := List.mem_map.1 h₂
    exact absurd heq (by simp)

end CWallet

/-! ## The loop -/

open CWallet

theorem posOf_setNext {n : ℤ} : ({ w with nOrderPosNext := n } : CWallet).posOf id = w.posOf id := by
  cases id <;> rfl

/-- **An item is given its position**, where what is not written back is
what it had. -/
theorem assign_spec {fWriteTx fWriteEntry : Bool}
    (hrun : assign fWritten id p fWriteTx fWriteEntry s = (.ok (), s'))
    (hpos : s.wallet.posOf id = some q) (hsame : fWriteEntry = false → q = p) :
    s'.nOrderPosOffsets = s.nOrderPosOffsets ∧ s'.wallet.nOrderPosNext = s.wallet.nOrderPosNext ∧
      ∀ id', s'.wallet.posOf id' = if id' = id then some p else s.wallet.posOf id' := by
  have hset : ∀ id', (s.wallet.setPos id p).posOf id' =
      if id' = id then some p else s.wallet.posOf id' := by
    intro id'
    rw [posOf_setPos]
    by_cases heq : id' = id
    · rw [if_pos heq, if_pos heq, heq, hpos, Option.map_some]
    · rw [if_neg heq, if_neg heq]
  cases id with
  | tx hash =>
    unfold assign at hrun
    dsimp only at hrun
    rw [Step.modify_bind] at hrun
    split_ifs at hrun
    · exact absurd (congrArg Prod.fst hrun) (by simp)
    · obtain rfl := congrArg Prod.snd hrun
      exact ⟨rfl, rfl, hset⟩
  | acentry key =>
    unfold assign at hrun
    dsimp only at hrun
    split_ifs at hrun with hentry hwritten
    · obtain rfl : s = s' := congrArg Prod.snd hrun
      refine ⟨rfl, rfl, fun id' => ?_⟩
      by_cases heq : id' = .acentry key
      · rw [if_pos heq, heq, hpos, hsame (by simpa using hentry)]
      · rw [if_neg heq]
    · exact absurd (congrArg Prod.fst hrun) (by simp)
    · obtain rfl := congrArg Prod.snd hrun
      exact ⟨rfl, rfl, hset⟩

theorem add_nOrderPosOff {O : List ℤ} : p + nOrderPosOff O p = moved O p := rfl

/-- **One item** that goes through is given its position, and the others
keep theirs. -/
theorem reorderItem_spec (hrun : reorderItem fWritten item s = (.ok (), s'))
    (hpos : s.wallet.posOf item.id = some item.nOrderPos) :
    (item.nOrderPos = -1 →
      s'.wallet.nOrderPosNext = s.wallet.nOrderPosNext + 1 ∧
      s'.nOrderPosOffsets = s.nOrderPosOffsets ++ [s.wallet.nOrderPosNext] ∧
      ∀ id, s'.wallet.posOf id =
        if id = item.id then some s.wallet.nOrderPosNext else s.wallet.posOf id) ∧
    (item.nOrderPos ≠ -1 →
      s'.wallet.nOrderPosNext =
        max s.wallet.nOrderPosNext (moved s.nOrderPosOffsets item.nOrderPos + 1) ∧
      s'.nOrderPosOffsets = s.nOrderPosOffsets ∧
      ∀ id, s'.wallet.posOf id =
        if id = item.id then some (moved s.nOrderPosOffsets item.nOrderPos)
        else s.wallet.posOf id) := by
  unfold reorderItem at hrun
  rw [Step.get_bind] at hrun
  by_cases hnew : item.nOrderPos = -1
  · rw [if_pos hnew, Step.modify_bind] at hrun
    obtain ⟨hoffsets, hnext, hall⟩ := assign_spec hrun (posOf_setNext.trans hpos) (by simp)
    refine ⟨fun _ => ⟨hnext, hoffsets, fun id => ?_⟩, fun h => absurd hnew h⟩
    rw [hall id, posOf_setNext]
  · rw [if_neg hnew, Step.modify_bind] at hrun
    obtain ⟨hoffsets, hnext, hall⟩ := assign_spec hrun (posOf_setNext.trans hpos) (fun hoff => by
      have hzero : nOrderPosOff s.nOrderPosOffsets item.nOrderPos = 0 := by simpa using hoff
      rw [hzero]
      simp)
    refine ⟨fun h => absurd h hnew, fun _ => ⟨hnext, hoffsets, fun id => ?_⟩⟩
    rw [hall id, posOf_setNext, add_nOrderPosOff]

/-- **The loop**, where it goes through: positions, places and what is next
are as they are handed out. -/
theorem forEach_reorderItem_spec (hrun : Step.forEach (reorderItem fWritten) l s = (.ok (), s'))
    (hnodup : (l.map Item.id).Nodup)
    (hpos : ∀ item ∈ l, s.wallet.posOf item.id = some item.nOrderPos) :
    s'.wallet.nOrderPosNext = nextAfter s.wallet.nOrderPosNext s.nOrderPosOffsets
      (l.map Item.nOrderPos) ∧
    (∀ (k : ℕ) (item : Item), l[k]? = some item → s'.wallet.posOf item.id =
      (values s.wallet.nOrderPosNext s.nOrderPosOffsets (l.map Item.nOrderPos))[k]?) ∧
    ∀ id, id ∉ l.map Item.id → s'.wallet.posOf id = s.wallet.posOf id := by
  induction l generalizing s with
  | nil =>
    obtain rfl : s = s' := congrArg Prod.snd hrun
    exact ⟨rfl, fun k item hk => by simp at hk, fun _ _ => rfl⟩
  | cons item l ih =>
    rw [Step.forEach_cons, Step.bind_eq_ok] at hrun
    obtain ⟨⟨⟩, s₁, hitem, hrest⟩ := hrun
    obtain ⟨hnot, hnodup⟩ := List.nodup_cons.1 hnodup
    -- the item is given `v`, and the rest goes on from there
    obtain ⟨v, hall, hnext, hvalues⟩ : ∃ v,
        (∀ id, s₁.wallet.posOf id = if id = item.id then some v else s.wallet.posOf id) ∧
        nextAfter s.wallet.nOrderPosNext s.nOrderPosOffsets ((item :: l).map Item.nOrderPos) =
          nextAfter s₁.wallet.nOrderPosNext s₁.nOrderPosOffsets (l.map Item.nOrderPos) ∧
        values s.wallet.nOrderPosNext s.nOrderPosOffsets ((item :: l).map Item.nOrderPos) =
          v :: values s₁.wallet.nOrderPosNext s₁.nOrderPosOffsets (l.map Item.nOrderPos) := by
      obtain ⟨hnew, hold⟩ := reorderItem_spec hitem (hpos item List.mem_cons_self)
      by_cases h : item.nOrderPos = -1
      · obtain ⟨hnext, hoffsets, hall⟩ := hnew h
        refine ⟨_, hall, ?_, ?_⟩
        · rw [List.map_cons, nextAfter, if_pos h, hnext, hoffsets]
        · rw [List.map_cons, values, if_pos h, hnext, hoffsets]
      · obtain ⟨hnext, hoffsets, hall⟩ := hold h
        refine ⟨_, hall, ?_, ?_⟩
        · rw [List.map_cons, nextAfter, if_neg h, hnext, hoffsets]
        · rw [List.map_cons, values, if_neg h, hnext, hoffsets]
    have hother : ∀ item' ∈ l, s₁.wallet.posOf item'.id = some item'.nOrderPos := by
      intro item' hmem
      have hne : item'.id ≠ item.id := fun heq => hnot (heq ▸ List.mem_map_of_mem hmem)
      rw [hall, if_neg hne]
      exact hpos item' (List.mem_cons_of_mem _ hmem)
    obtain ⟨ihnext, ihvalues, ihrest⟩ := ih hrest hnodup hother
    rw [hnext, hvalues]
    refine ⟨ihnext, fun k item' hk => ?_, fun id hid => ?_⟩
    · cases k with
      | zero =>
        obtain rfl : item = item' := Option.some.inj hk
        rw [ihrest _ hnot, hall, if_pos rfl]
        rfl
      | succ k => exact ihvalues k item' hk
    · rw [List.map_cons, List.mem_cons, not_or] at hid
      rw [ihrest id hid.2, hall, if_neg hid.1]

/-- Where everybody has a position, nothing is written and the loop goes
through. -/
theorem forEach_reorderItem_of_ne (fWritten : ItemId → Bool) (hoffsets : s.nOrderPosOffsets = [])
    (hl : ∀ item ∈ l, item.nOrderPos ≠ -1) :
    ∃ s', Step.forEach (reorderItem fWritten) l s = (.ok (), s') := by
  induction l generalizing s with
  | nil => exact ⟨s, rfl⟩
  | cons item l ih =>
    have hitem : ∃ s₁, reorderItem fWritten item s = (.ok (), s₁) ∧ s₁.nOrderPosOffsets = [] := by
      have hzero : nOrderPosOff s.nOrderPosOffsets item.nOrderPos = 0 := by
        rw [hoffsets]
        rfl
      unfold reorderItem
      rw [Step.get_bind, if_neg (hl item List.mem_cons_self), Step.modify_bind, hzero]
      unfold assign
      cases item.id with
      | tx hash => exact ⟨_, rfl, hoffsets⟩
      | acentry key => exact ⟨_, rfl, hoffsets⟩
    obtain ⟨s₁, hrun, hnil⟩ := hitem
    rw [Step.forEach_cons, Step.bind_of_ok hrun]
    exact ih hnil fun item hmem => hl item (List.mem_cons_of_mem _ hmem)

/-! ## The order -/

namespace CWallet

/-- The positions of what is listed, by time. -/
def positions (w : CWallet) : List ℤ := w.txByTime.map Item.nOrderPos

/-- The places for those of them that have none. -/
def newPlaces (w : CWallet) : List ℤ := places (-1) [] w.positions

/-- A position is none, or one that nobody else has. -/
structure Positioned (w : CWallet) : Prop where
  nonneg : ∀ id p, w.posOf id = some p → p = -1 ∨ 0 ≤ p
  distinct : ∀ id id' p, 0 ≤ p → w.posOf id = some p → w.posOf id' = some p → id = id'

/-- **A total order**, in which nobody that had a position loses his turn,
and that a second run keeps. -/
structure Ordered (w w' : CWallet) : Prop where
  nonneg : ∀ id p, w'.posOf id = some p → 0 ≤ p
  lt_next : ∀ id p, w'.posOf id = some p → p < w'.nOrderPosNext
  distinct : ∀ id id' p, w'.posOf id = some p → w'.posOf id' = some p → id = id'
  keeps : ∀ id id' p q p' q', w.posOf id = some p → w.posOf id' = some q → 0 ≤ p → p < q →
    w'.posOf id = some p' → w'.posOf id' = some q' → p' < q'
  stable : ∀ fWritten, ∃ w'', reorderTransactions fWritten w' = (.ok (), w'') ∧
    ∀ id, w''.posOf id = w'.posOf id

/-- **No place is one that somebody moves to**, and the entries of other
accounts have positions of their own, which nobody moves across. -/
structure Orderable (w : CWallet) : Prop where
  listed : ∀ p ∈ w.positions, p ≠ -1 → moved w.newPlaces p ∉ w.newPlaces
  others : ∀ entry ∈ w.acentries, entry.strAccount ≠ "" →
    0 ≤ entry.nOrderPos ∧ entry.nOrderPos ∉ w.newPlaces ∧
    (∀ p ∈ w.positions, p ≠ -1 → p < entry.nOrderPos → moved w.newPlaces p < entry.nOrderPos) ∧
    ((∃ o ∈ w.newPlaces, entry.nOrderPos < o) ∨
      ∃ p ∈ w.positions, p ≠ -1 ∧ entry.nOrderPos < moved w.newPlaces p)

theorem newPlaces_eq : w.newPlaces = offsets 0 [] w.positions :=
  (offsets_eq_places (by simp [moved])).symm

/-- **What is not listed** is an entry of another account. -/
theorem exists_entry_of_not_listed (hpos : w.posOf id = some p) (h : ¬ w.Listed id) :
    ∃ entry ∈ w.acentries, entry.strAccount ≠ "" ∧ id = .acentry entry.key ∧
      entry.nOrderPos = p := by
  cases id with
  | tx hash =>
    obtain ⟨wtx, hwtx, -⟩ := Option.map_eq_some_iff.1 hpos
    exact absurd (Std.ExtTreeMap.mem_iff_isSome_getElem?.2 (by rw [hwtx]; rfl)) h
  | acentry key =>
    obtain ⟨entry, hentry, heq⟩ := Option.map_eq_some_iff.1 hpos
    obtain ⟨hmem, rfl⟩ := find?_eq_some_iff.1 hentry
    exact ⟨entry, hmem, fun hdefault => h ⟨hdefault, entry, hmem, rfl⟩, rfl, heq⟩

theorem posOf_entry {entry : CAccountingEntry} (h : entry ∈ w.acentries) :
    w.posOf (.acentry entry.key) = some entry.nOrderPos :=
  congrArg (Option.map CAccountingEntry.nOrderPos) (find?_eq_some_iff.2 ⟨h, rfl⟩)

theorem exists_getElem?_of_listed (h : w.Listed id) :
    ∃ (k : ℕ) (item : Item), w.txByTime[k]? = some item ∧ item.id = id := by
  obtain ⟨item, hmem, hid⟩ := List.mem_map.1 (listed_iff.1 h)
  obtain ⟨k, hk⟩ := List.mem_iff_getElem?.1 hmem
  exact ⟨k, item, hk, hid⟩

theorem listed_of_getElem? {k : ℕ} (hk : w.txByTime[k]? = some item) : w.Listed item.id :=
  listed_iff.2 (List.mem_map_of_mem (List.mem_of_getElem? hk))

theorem getElem?_positions {k : ℕ} (hk : w.txByTime[k]? = some item) :
    w.positions[k]? = some item.nOrderPos := by
  unfold positions
  rw [List.getElem?_map, hk, Option.map_some]

/-- **A run that goes through**: what is listed has the positions handed
out, and the rest is as it was. -/
theorem reorderTransactions_spec (hrun : reorderTransactions fWritten w = (.ok (), w')) :
    w'.nOrderPosNext = nextAfter 0 [] w.positions ∧
    (∀ (k : ℕ) (item : Item), w.txByTime[k]? = some item →
      w'.posOf item.id = (values 0 [] w.positions)[k]?) ∧
    ∀ id, ¬ w.Listed id → w'.posOf id = w.posOf id := by
  unfold reorderTransactions at hrun
  dsimp only at hrun
  generalize hloop : Step.forEach (reorderItem fWritten) w.txByTime
    ⟨{ w with nOrderPosNext := 0 }, []⟩ = r at hrun
  obtain ⟨res, s'⟩ := r
  obtain ⟨rfl, rfl⟩ := Prod.mk.inj hrun
  obtain ⟨hnext, hvalues, hrest⟩ := forEach_reorderItem_spec hloop nodup_ids
    fun item hmem => posOf_setNext.trans (posOf_of_mem hmem)
  exact ⟨hnext, hvalues, fun id hid =>
    (hrest id fun hmem => hid (listed_iff.2 hmem)).trans posOf_setNext⟩

/-- Where a listed item is, and what it is given. -/
theorem exists_value (hrun : reorderTransactions fWritten w = (.ok (), w')) (h : w.Listed id) :
    ∃ (k : ℕ) (item : Item) (v : ℤ), w.txByTime[k]? = some item ∧ item.id = id ∧
      (values 0 [] w.positions)[k]? = some v ∧ w'.posOf id = some v := by
  obtain ⟨-, hvalues, -⟩ := reorderTransactions_spec hrun
  obtain ⟨k, item, hk, rfl⟩ := exists_getElem?_of_listed h
  have hlt : k < (values 0 [] w.positions).length := by
    rw [length_values]
    exact (List.getElem?_eq_some_iff.1 (getElem?_positions hk)).1
  refine ⟨k, item, _, hk, rfl, List.getElem?_eq_getElem hlt, ?_⟩
  rw [hvalues k item hk, List.getElem?_eq_getElem hlt]

/-- **What a listed item is given**: a place, or what its position moves
to. -/
theorem value_cases {k : ℕ} {v : ℤ} (hk : w.txByTime[k]? = some item)
    (hv : (values 0 [] w.positions)[k]? = some v) :
    (item.nOrderPos = -1 ∧ v ∈ w.newPlaces) ∨
      (item.nOrderPos ≠ -1 ∧ v = moved w.newPlaces item.nOrderPos) := by
  have hp := getElem?_positions hk
  rw [newPlaces_eq]
  by_cases hnew : item.nOrderPos = -1
  · rw [hnew] at hp
    obtain ⟨o, ho, hval⟩ : ∃ o ∈ offsets 0 [] w.positions,
      (values 0 [] w.positions)[k]? = some o := exists_getElem?_values_eq hp
    obtain rfl := Option.some.inj (hv.symm.trans hval)
    exact .inl ⟨hnew, ho⟩
  · exact .inr ⟨hnew, Option.some.inj (hv.symm.trans (getElem?_values_of_ne hp hnew))⟩

/-- **A place is what some item is given** that had none. -/
theorem exists_of_mem_newPlaces {o : ℤ} (hrun : reorderTransactions fWritten w = (.ok (), w'))
    (ho : o ∈ w.newPlaces) :
    ∃ id, w.Listed id ∧ w.posOf id = some (-1) ∧ w'.posOf id = some o := by
  obtain ⟨-, hvalues, -⟩ := reorderTransactions_spec hrun
  rw [newPlaces_eq] at ho
  obtain ⟨k, hk, hv⟩ := (mem_offsets ho).resolve_left List.not_mem_nil
  unfold positions at hk
  rw [List.getElem?_map, Option.map_eq_some_iff] at hk
  obtain ⟨item, hitem, hp⟩ := hk
  refine ⟨item.id, listed_of_getElem? hitem, ?_, (hvalues k item hitem).trans hv⟩
  rw [posOf_of_mem (List.mem_of_getElem? hitem), hp]

/-- And a position that some item has moves. -/
theorem exists_of_mem_positions (hrun : reorderTransactions fWritten w = (.ok (), w'))
    (hmem : p ∈ w.positions) (hp : p ≠ -1) :
    ∃ id, w.Listed id ∧ w.posOf id = some p ∧ w'.posOf id = some (moved w.newPlaces p) := by
  obtain ⟨-, hvalues, -⟩ := reorderTransactions_spec hrun
  obtain ⟨item, hitem, rfl⟩ := List.mem_map.1 hmem
  obtain ⟨k, hk⟩ := List.mem_iff_getElem?.1 hitem
  refine ⟨item.id, listed_of_getElem? hk, posOf_of_mem hitem, ?_⟩
  rw [hvalues k item hk, getElem?_values_of_ne (getElem?_positions hk) hp, newPlaces_eq]

/-- **Two listed items are given the same** only if a place is one that
somebody moves to. -/
theorem eq_of_values_eq (hpositioned : w.Positioned) (horder : w.Orderable) {j k : ℕ} {v : ℤ}
    {item' : Item} (hj : w.txByTime[j]? = some item) (hk : w.txByTime[k]? = some item')
    (hvj : (values 0 [] w.positions)[j]? = some v)
    (hvk : (values 0 [] w.positions)[k]? = some v) : item.id = item'.id := by
  have hmem := List.mem_of_getElem? hj
  have hmem' := List.mem_of_getElem? hk
  rcases value_cases hj hvj with ⟨hnew, hv⟩ | ⟨hold, hv⟩
  · rcases value_cases hk hvk with ⟨hnew', -⟩ | ⟨hold', hv'⟩
    · -- of two places the later is above the earlier
      have hpj := getElem?_positions hj
      have hpk := getElem?_positions hk
      rw [hnew] at hpj
      rw [hnew'] at hpk
      rcases lt_trichotomy j k with hlt | rfl | hlt
      · exact absurd (lt_of_lt_of_getElem?_values hlt hpk hvj hvk) (lt_irrefl _)
      · rw [Option.some.inj (hj.symm.trans hk)]
      · exact absurd (lt_of_lt_of_getElem?_values hlt hpj hvk hvj) (lt_irrefl _)
    · exact absurd (hv' ▸ hv) (horder.listed _ (List.mem_map_of_mem hmem') hold')
  · rcases value_cases hk hvk with ⟨-, hv'⟩ | ⟨-, hv'⟩
    · exact absurd (hv ▸ hv') (horder.listed _ (List.mem_map_of_mem hmem) hold)
    · have hsame : item.nOrderPos = item'.nOrderPos := moved_injective (hv.symm.trans hv')
      have hpos := posOf_of_mem hmem
      exact hpositioned.distinct _ _ _ ((hpositioned.nonneg _ _ hpos).resolve_left hold) hpos
        (hsame ▸ posOf_of_mem hmem')

/-- **An orderable wallet is put in order.** -/
theorem ordered_of_orderable (hpositioned : w.Positioned) (horder : w.Orderable)
    (hrun : reorderTransactions fWritten w = (.ok (), w')) : w.Ordered w' := by
  obtain ⟨hnext, -, hrest⟩ := reorderTransactions_spec hrun
  -- an item is given a value, or is an entry of another account
  have hcases : ∀ id p', w'.posOf id = some p' → (w.Listed id ∧ ∃ (k : ℕ) (item : Item),
      w.txByTime[k]? = some item ∧ item.id = id ∧
        (values 0 [] w.positions)[k]? = some p') ∨
      (¬ w.Listed id ∧ w.posOf id = some p' ∧ ∃ entry ∈ w.acentries, entry.strAccount ≠ "" ∧
        id = .acentry entry.key ∧ entry.nOrderPos = p') := by
    intro id p' hp'
    by_cases hlisted : w.Listed id
    · obtain ⟨k, item, v, hk, hid, hv, hpos⟩ := exists_value hrun hlisted
      obtain rfl := Option.some.inj (hpos.symm.trans hp')
      exact .inl ⟨hlisted, k, item, hk, hid, hv⟩
    · rw [hrest id hlisted] at hp'
      exact .inr ⟨hlisted, hp', exists_entry_of_not_listed hp' hlisted⟩
  have hnonneg : ∀ id p, w'.posOf id = some p → 0 ≤ p := by
    intro id p hp
    rcases hcases id p hp with ⟨-, k, item, hk, -, hv⟩ | ⟨-, -, entry, hmem, hother, -, rfl⟩
    · refine nonneg_of_mem_values le_rfl (fun q hq => ?_) (List.mem_of_getElem? hv)
      obtain ⟨item', hitem', rfl⟩ := List.mem_map.1 hq
      exact hpositioned.nonneg _ _ (posOf_of_mem hitem')
    · exact (horder.others entry hmem hother).1
  refine ⟨hnonneg, fun id p hp => ?_, fun id id' p hp hp' => ?_,
    fun id id' p q p' q' hp hq hle hlt hp' hq' => ?_, fun fWritten' => ?_⟩
  · rw [hnext, lt_nextAfter_iff]
    rcases hcases id p hp with ⟨-, k, item, -, -, hv⟩ | ⟨-, -, entry, hmem, hother, -, rfl⟩
    · exact .inr ⟨p, List.mem_of_getElem? hv, le_rfl⟩
    · have hgiven : ∀ id v, w.Listed id → w'.posOf id = some v →
          v ∈ values 0 [] w.positions := by
        intro id v hlisted hv
        obtain ⟨k, item, v', -, -, hv', hpos⟩ := exists_value hrun hlisted
        obtain rfl := Option.some.inj (hpos.symm.trans hv)
        exact List.mem_of_getElem? hv'
      obtain ⟨-, -, -, ⟨o, ho, hlt⟩ | ⟨q, hq, hne, hlt⟩⟩ := horder.others entry hmem hother
      · obtain ⟨id', hlisted, -, hpos⟩ := exists_of_mem_newPlaces hrun ho
        exact .inr ⟨o, hgiven id' o hlisted hpos, hlt.le⟩
      · obtain ⟨id', hlisted, -, hpos⟩ := exists_of_mem_positions hrun hq hne
        exact .inr ⟨_, hgiven id' _ hlisted hpos, hlt.le⟩
  · -- a listed item and an entry of another account
    have hmixed : ∀ {k : ℕ} {item : Item} {entry : CAccountingEntry},
        w.txByTime[k]? = some item → (values 0 [] w.positions)[k]? = some entry.nOrderPos →
        entry ∈ w.acentries → entry.strAccount ≠ "" → ¬ w.Listed (.acentry entry.key) → False := by
      intro k item entry hk hv hmem hother hnot
      obtain ⟨hle, hplace, hcross, -⟩ := horder.others entry hmem hother
      rcases value_cases hk hv with ⟨-, hnew⟩ | ⟨hold, hmoved⟩
      · exact hplace hnew
      · have hitem := List.mem_of_getElem? hk
        have hp := posOf_of_mem hitem
        rcases (le_moved (O := w.newPlaces) (p := item.nOrderPos)).lt_or_eq with hlt | heq
        · rw [← hmoved] at hlt
          have hself := hcross _ (List.mem_map_of_mem hitem) hold hlt
          rw [← hmoved] at hself
          exact absurd hself (lt_irrefl _)
        · rw [heq, ← hmoved] at hp
          have hid := hpositioned.distinct _ _ _ hle hp (posOf_entry hmem)
          exact hnot (hid ▸ listed_of_getElem? hk)
    rcases hcases id p hp with ⟨-, j, item, hj, rfl, hvj⟩ | ⟨hnot, hold, entry, hmem, hother, rfl, rfl⟩
    · rcases hcases id' p hp' with ⟨-, k, item', hk, rfl, hvk⟩ |
        ⟨hnot', -, entry, hmem, hother, rfl, rfl⟩
      · exact eq_of_values_eq hpositioned horder hj hk hvj hvk
      · exact (hmixed hj hvj hmem hother hnot').elim
    · rcases hcases id' _ hp' with ⟨-, k, item', hk, rfl, hvk⟩ | ⟨-, hold', -⟩
      · exact (hmixed hk hvk hmem hother hnot).elim
      · exact hpositioned.distinct _ _ _ (horder.others entry hmem hother).1 hold hold'
  · have hmoved : ∀ {id p p'}, w.Listed id → w.posOf id = some p → 0 ≤ p →
        w'.posOf id = some p' → p ∈ w.positions ∧ p ≠ -1 ∧ p' = moved w.newPlaces p := by
      intro id p p' hlisted hp hle hp'
      obtain ⟨k, item, v, hk, rfl, hv, hpos⟩ := exists_value hrun hlisted
      have hitem := List.mem_of_getElem? hk
      obtain rfl := Option.some.inj ((posOf_of_mem hitem).symm.trans hp)
      obtain rfl := Option.some.inj (hpos.symm.trans hp')
      have hne : item.nOrderPos ≠ -1 := by omega
      exact ⟨List.mem_map_of_mem hitem, hne, ((value_cases hk hv).resolve_left fun h => hne h.1).2⟩
    by_cases hid : w.Listed id
    · obtain ⟨hmem, hne, rfl⟩ := hmoved hid hp hle hp'
      by_cases hid' : w.Listed id'
      · obtain ⟨-, -, rfl⟩ := hmoved hid' hq (hle.trans hlt.le) hq'
        exact moved_lt_moved hlt
      · rw [hrest id' hid', hq] at hq'
        obtain rfl := Option.some.inj hq'
        obtain ⟨entry, hentry, hother, -, rfl⟩ := exists_entry_of_not_listed hq hid'
        exact (horder.others entry hentry hother).2.2.1 p hmem hne hlt
    · rw [hrest id hid, hp] at hp'
      obtain rfl := Option.some.inj hp'
      by_cases hid' : w.Listed id'
      · obtain ⟨-, -, rfl⟩ := hmoved hid' hq (hle.trans hlt.le) hq'
        exact hlt.trans_le le_moved
      · rw [hrest id' hid', hq] at hq'
        rwa [← Option.some.inj hq']
  · -- now everybody has a position
    have hold : ∀ item ∈ w'.txByTime, item.nOrderPos ≠ -1 := by
      intro item hitem hnew
      have := hnonneg _ _ (posOf_of_mem hitem)
      omega
    obtain ⟨s, hloop⟩ := forEach_reorderItem_of_ne fWritten'
      (s := ⟨{ w' with nOrderPosNext := 0 }, []⟩) rfl hold
    have hagain : reorderTransactions fWritten' w' = (.ok (), s.wallet) := by
      unfold reorderTransactions
      dsimp only
      rw [hloop]
    obtain ⟨-, hvalues, hsame⟩ := reorderTransactions_spec hagain
    refine ⟨s.wallet, hagain, fun id => ?_⟩
    by_cases hlisted : w'.Listed id
    · obtain ⟨k, item, hk, rfl⟩ := exists_getElem?_of_listed hlisted
      rw [hvalues k item hk, posOf_of_mem (List.mem_of_getElem? hk), values_of_forall_ne,
        getElem?_positions hk]
      intro p hp
      obtain ⟨item', hitem', rfl⟩ := List.mem_map.1 hp
      exact hold item' hitem'
    · exact hsame id hlisted

/-- **What is in order was orderable.** -/
theorem orderable_of_ordered (hpositioned : w.Positioned) (h : w.Ordered w')
    (hrun : reorderTransactions fWritten w = (.ok (), w')) : w.Orderable := by
  obtain ⟨hnext, -, hrest⟩ := reorderTransactions_spec hrun
  refine ⟨fun p hp hne hplace => ?_, fun entry hmem hother => ?_⟩
  · obtain ⟨id, -, hold, hpos⟩ := exists_of_mem_positions hrun hp hne
    obtain ⟨id', -, hnew, hpos'⟩ := exists_of_mem_newPlaces hrun hplace
    obtain rfl := h.distinct _ _ _ hpos hpos'
    exact hne (Option.some.inj (hold.symm.trans hnew))
  · have hnot : ¬ w.Listed (.acentry entry.key) := fun hlisted => hother hlisted.1
    have hold := posOf_entry hmem
    have hpos := (hrest _ hnot).trans hold
    have hle := h.nonneg _ _ hpos
    have hapart : ∀ id v, w.Listed id → w'.posOf id = some v → v ≠ entry.nOrderPos := by
      rintro id v hlisted hv rfl
      exact hnot (h.distinct _ _ _ hv hpos ▸ hlisted)
    refine ⟨hle, fun hplace => ?_, fun p hp hne hlt => ?_, ?_⟩
    · obtain ⟨id, hlisted, -, hv⟩ := exists_of_mem_newPlaces hrun hplace
      exact hapart id _ hlisted hv rfl
    · obtain ⟨id, hlisted, hold', hv⟩ := exists_of_mem_positions hrun hp hne
      have hle' := (hpositioned.nonneg _ _ hold').resolve_left hne
      exact h.keeps _ _ _ _ _ _ hold' hold hle' hlt hv hpos
    · have hlt := h.lt_next _ _ hpos
      rw [hnext, lt_nextAfter_iff] at hlt
      obtain ⟨v, hv, hle'⟩ := hlt.resolve_left hle.not_gt
      obtain ⟨k, hk⟩ := List.mem_iff_getElem?.1 hv
      have hlen : k < w.txByTime.length := by
        have := (List.getElem?_eq_some_iff.1 hk).1
        rw [length_values] at this
        unfold positions at this
        rwa [List.length_map] at this
      have hitem := List.getElem?_eq_getElem hlen
      have hgiven := ((reorderTransactions_spec hrun).2.1 k _ hitem).trans hk
      have hlt' : entry.nOrderPos < v :=
        lt_of_le_of_ne hle' (hapart _ v (listed_of_getElem? hitem) hgiven).symm
      rcases value_cases hitem hk with ⟨-, hnew⟩ | ⟨hne, rfl⟩
      · exact .inl ⟨v, hnew, hlt'⟩
      · exact .inr ⟨_, List.mem_map_of_mem (List.mem_of_getElem? hitem), hne, hlt'⟩

/-- **`ReorderTransactions` yields a total order** exactly where the wallet
is orderable. -/
theorem ordered_iff (hpositioned : w.Positioned)
    (hrun : reorderTransactions fWritten w = (.ok (), w')) : w.Ordered w' ↔ w.Orderable :=
  ⟨fun h => orderable_of_ordered hpositioned h hrun,
    fun h => ordered_of_orderable hpositioned h hrun⟩

end CWallet

/-! ## Two on one place -/

namespace Collision

/-- Four transactions: the second and the third, by time, have no
position. -/
def wallet : CWallet where
  mapWallet := (((Std.ExtTreeMap.empty.insert 1 ⟨1, 0⟩).insert 2 ⟨2, -1⟩).insert 3 ⟨3, -1⟩).insert
    4 ⟨4, 1⟩
  acentries := []
  nOrderPosNext := 2
  nodup_acentries := List.nodup_nil

/-- The wallet after the call. -/
def reordered : CWallet := (reorderTransactions (fun _ => true) wallet).2

theorem reorder_wallet : reorderTransactions (fun _ => true) wallet = (.ok (), reordered) :=
  Step.eq_of_fst_eq (by decide)

theorem positioned_wallet : wallet.Positioned := by
  have hmem : ∀ {id p}, wallet.posOf id = some p →
      ∃ e ∈ wallet.mapWallet.toList, id = .tx e.1 ∧ p = e.2.nOrderPos := by
    intro id p hp
    cases id with
    | tx hash =>
      obtain ⟨wtx, hwtx, rfl⟩ := Option.map_eq_some_iff.1 hp
      exact ⟨(hash, wtx), Std.ExtTreeMap.mem_toList_iff_getElem?_eq_some.2 hwtx, rfl, rfl⟩
    | acentry key => exact absurd hp (by simp [CWallet.posOf, wallet])
  have hpos : ∀ e ∈ wallet.mapWallet.toList, e.2.nOrderPos = -1 ∨ 0 ≤ e.2.nOrderPos := by
    decide
  have hdistinct : ∀ e ∈ wallet.mapWallet.toList, ∀ e' ∈ wallet.mapWallet.toList,
      0 ≤ e.2.nOrderPos → e.2.nOrderPos = e'.2.nOrderPos → e.1 = e'.1 := by
    decide
  refine ⟨fun id p hp => ?_, fun id id' p hle hp hp' => ?_⟩
  · obtain ⟨e, he, -, rfl⟩ := hmem hp
    exact hpos e he
  · obtain ⟨e, he, rfl, rfl⟩ := hmem hp
    obtain ⟨e', he', rfl, heq⟩ := hmem hp'
    rw [hdistinct e he e' he' hle heq]

end Collision

/-- The four transactions are not orderable, and not put in order. -/
theorem ordered_iff_collision : Collision.wallet.Ordered Collision.reordered ↔
    Collision.wallet.Orderable :=
  CWallet.ordered_iff Collision.positioned_wallet Collision.reorder_wallet

/-- **Two transactions are given one position**: the last moves to the
place that the third was handed. -/
theorem reorderTransactions_collides :
    ¬ ∀ (w w' : CWallet) (fWritten : ItemId → Bool), w.Positioned →
      reorderTransactions fWritten w = (.ok (), w') → w.Ordered w' := by
  intro hall
  have h := hall _ _ _ Collision.positioned_wallet Collision.reorder_wallet
  have hthird : Collision.reordered.posOf (.tx 3) = some 2 := by decide
  have hlast : Collision.reordered.posOf (.tx 4) = some 2 := by decide
  exact absurd (h.distinct _ _ _ hthird hlast) (by decide)

end Reorder

end CryptoBullion
