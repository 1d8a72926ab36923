import CryptoBullion.Model.KeyPool
/-!
# Who holds which key of the pool

A reserved index has left the set, and the set's largest index is what new
indexes are counted from. Nothing keeps a number from being given out
again while it is reserved: with nothing larger left in the set the count
starts over below it, and a new pool is numbered from one whatever is
still out. `Undisturbed` says of a call that it writes no record a holder
counts on; in a run of such calls every index of the set has its record,
two holders never share an index or a key, and a key that was kept is not
held again.
-/

namespace CryptoBullion

variable {K H : Type} {env : KeyPoolEnv K} {kept : List K}

/-! ## The wallet's side -/

namespace KeyPoolWallet

variable {w : KeyPoolWallet K} {held : Set ℤ} {nIndex : ℤ} {key : K}

/-- The indexes `TopUpKeyPool` writes records at. -/
def TopUpWrites (env : KeyPoolEnv K) (w : KeyPoolWallet K) (i : ℤ) : Prop :=
  env.fLocked = false ∧ w.nEnd ≤ i ∧ i < w.nEnd + (nTarget env - w.setKeyPool.card : ℕ)

/-- The indexes `NewKeyPool` writes records at. -/
def NewKeyPoolWrites (env : KeyPoolEnv K) (i : ℤ) : Prop :=
  env.fLocked = false ∧ 1 ≤ i ∧ i ≤ nKeys env

/-- The indexes of the set and those held outside it: each has a record,
of a known and valid key that no other of them has and that was never
kept. Keys still to be made are not among the known ones. -/
structure Sound (env : KeyPoolEnv K) (held : Set ℤ) (kept : List K) (w : KeyPoolWallet K) :
    Prop where
  pos : ∀ i, i ∈ w.setKeyPool ∨ i ∈ held → 0 < i
  apart : ∀ i ∈ w.setKeyPool, i ∉ held
  recorded : ∀ i, i ∈ w.setKeyPool ∨ i ∈ held →
    ∃ key, w.pool i = some key ∧ key ∈ w.mapKeys ∧ env.isValid key = true ∧ key ∉ kept
  distinct : ∀ i j key, i ∈ w.setKeyPool ∨ i ∈ held → j ∈ w.setKeyPool ∨ j ∈ held →
    w.pool i = some key → w.pool j = some key → i = j
  known : ∀ key ∈ kept, key ∈ w.mapKeys
  unseen : ∀ n, w.nGenerated ≤ n → env.newKey n ∉ w.mapKeys

/-- The next index is behind every index of the set. -/
theorem lt_nEnd {i : ℤ} (hi : i ∈ w.setKeyPool) : i < w.nEnd := by
  unfold nEnd
  rw [dif_pos ⟨i, hi⟩]
  have := w.setKeyPool.le_max' i hi
  omega

theorem Sound.nEnd_pos (hw : w.Sound env held kept) : 0 < w.nEnd := by
  unfold nEnd
  split
  · rename_i hne
    have := hw.pos _ (.inl (w.setKeyPool.max'_mem hne))
    omega
  · omega

/-- **A new key at a number nobody uses** leaves everyone's record alone. -/
theorem Sound.addKey (hw : w.Sound env held kept) (hpos : 0 < nIndex)
    (hset : nIndex ∉ w.setKeyPool) (hheld : nIndex ∉ held) :
    (w.addKey env nIndex).Sound env held kept := by
  have hnew : env.newKey w.nGenerated ∉ w.mapKeys := hw.unseen _ le_rfl
  -- an index in use before has the record it had
  have hold : ∀ i, i ∈ w.setKeyPool ∨ i ∈ held → (w.addKey env nIndex).pool i = w.pool i := by
    intro i hi
    refine Function.update_of_ne ?_ ..
    rintro rfl
    exact hi.elim hset hheld
  have hcases : ∀ i, i ∈ (w.addKey env nIndex).setKeyPool ∨ i ∈ held →
      i = nIndex ∨ i ∈ w.setKeyPool ∨ i ∈ held := by
    intro i hi
    rcases hi with hi | hi
    · exact (Finset.mem_insert.1 hi).imp_right .inl
    · exact .inr (.inr hi)
  have hself : (w.addKey env nIndex).pool nIndex = some (env.newKey w.nGenerated) :=
    Function.update_self ..
  -- the new key is in no record there was
  have hother : ∀ i, i ∈ w.setKeyPool ∨ i ∈ held → w.pool i ≠ some (env.newKey w.nGenerated) := by
    intro i hi h
    obtain ⟨key, hkey, hmem, -⟩ := hw.recorded i hi
    rw [hkey, Option.some.injEq] at h
    exact hnew (h ▸ hmem)
  constructor
  · intro i hi
    rcases hcases i hi with rfl | hi
    · exact hpos
    · exact hw.pos i hi
  · intro i hi
    rcases Finset.mem_insert.1 hi with rfl | hi
    · exact hheld
    · exact hw.apart i hi
  · intro i hi
    rcases hcases i hi with rfl | hi
    · exact ⟨_, hself, List.mem_cons_self, env.isValid_newKey _, fun h => hnew (hw.known _ h)⟩
    · obtain ⟨key, hkey, hmem, hrest⟩ := hw.recorded i hi
      exact ⟨key, (hold i hi).trans hkey, List.mem_cons_of_mem _ hmem, hrest⟩
  · intro i j key hi hj hkey hkey'
    rcases hcases i hi with rfl | hi' <;> rcases hcases j hj with rfl | hj'
    · rfl
    · rw [hself] at hkey
      rw [hold j hj', ← hkey] at hkey'
      exact absurd hkey' (hother j hj')
    · rw [hself] at hkey'
      rw [hold i hi', ← hkey'] at hkey
      exact absurd hkey (hother i hi')
    · rw [hold i hi'] at hkey
      rw [hold j hj'] at hkey'
      exact hw.distinct i j key hi' hj' hkey hkey'
  · exact fun key hkey => List.mem_cons_of_mem _ (hw.known key hkey)
  · intro n hn h
    have hn : w.nGenerated + 1 ≤ n := hn
    rcases List.mem_cons.1 h with h | h
    · have := env.newKey_injective h
      omega
    · exact hw.unseen n (by omega) h

/-- The next index is one further. -/
theorem nEnd_addKey : (w.addKey env w.nEnd).nEnd = w.nEnd + 1 := by
  have hne : (w.addKey env w.nEnd).setKeyPool.Nonempty := Finset.insert_nonempty ..
  have hmax : (w.addKey env w.nEnd).setKeyPool.max' hne = w.nEnd := by
    refine le_antisymm (Finset.max'_le _ _ _ fun i hi => ?_)
      (Finset.le_max' _ _ (Finset.mem_insert_self ..))
    rcases Finset.mem_insert.1 hi with rfl | hi
    · exact le_rfl
    · exact (lt_nEnd hi).le
  rw [nEnd, dif_pos hne, hmax]

theorem card_addKey : (w.addKey env w.nEnd).setKeyPool.card = w.setKeyPool.card + 1 :=
  Finset.card_insert_of_notMem fun h => (lt_nEnd h).false

/-- Sound, and with the records of what is held as they were. -/
def SoundBeside (env : KeyPoolEnv K) (held : Set ℤ) (kept : List K) (w w' : KeyPoolWallet K) :
    Prop :=
  w'.Sound env held kept ∧ ∀ i ∈ held, w'.pool i = w.pool i

theorem SoundBeside.addKey {w' : KeyPoolWallet K} (hw : SoundBeside env held kept w w')
    (hpos : 0 < nIndex) (hset : nIndex ∉ w'.setKeyPool) (hheld : nIndex ∉ held) :
    SoundBeside env held kept w (w'.addKey env nIndex) := by
  refine ⟨hw.1.addKey hpos hset hheld, fun i hi => ?_⟩
  rw [← hw.2 i hi]
  exact Function.update_of_ne (ne_of_mem_of_not_mem hi hheld) ..

/-- **Topping up writes behind the set**, and there only. -/
theorem SoundBeside.topUpLoop {w' : KeyPoolWallet K} {fuel : ℕ} (hlocked : env.fLocked = false)
    (hw : SoundBeside env held kept w w') (hheld : ∀ i ∈ held, ¬ w'.TopUpWrites env i) :
    SoundBeside env held kept w (w'.topUpLoop env fuel) := by
  induction fuel generalizing w' with
  | zero => exact hw
  | succ fuel ih =>
    unfold KeyPoolWallet.topUpLoop
    split
    · rename_i hcard
      refine ih (hw.addKey hw.1.nEnd_pos (fun h => (lt_nEnd h).false) fun h => hheld _ h ?_)
        fun i hi h => hheld i hi ?_
      · exact ⟨hlocked, le_rfl, by omega⟩
      · obtain ⟨-, hle, hlt⟩ := h
        rw [nEnd_addKey] at hle hlt
        rw [card_addKey] at hlt
        exact ⟨hlocked, by omega, by omega⟩
    · exact hw

theorem Sound.topUpKeyPool (hw : w.Sound env held kept)
    (hheld : ∀ i ∈ held, ¬ w.TopUpWrites env i) :
    SoundBeside env held kept w (w.topUpKeyPool env).2 := by
  unfold KeyPoolWallet.topUpKeyPool
  split
  · exact ⟨hw, fun _ _ => rfl⟩
  · rename_i hlocked
    exact SoundBeside.topUpLoop (by simpa using hlocked) ⟨hw, fun _ _ => rfl⟩ hheld

/-- Less in use is no less sound. -/
theorem Sound.of_subset {w' : KeyPoolWallet K} {held' : Set ℤ} {kept' : List K}
    (hw : w.Sound env held kept) (hapart : ∀ i ∈ w'.setKeyPool, i ∉ held')
    (hlive : ∀ i, i ∈ w'.setKeyPool ∨ i ∈ held' → (i ∈ w.setKeyPool ∨ i ∈ held) ∧
      w'.pool i = w.pool i ∧ ∀ key ∈ kept', w.pool i = some key → key ∈ kept)
    (hkept : ∀ key ∈ kept', key ∈ w.mapKeys) (hkeys : w'.mapKeys = w.mapKeys)
    (hgen : w'.nGenerated = w.nGenerated) : w'.Sound env held' kept' where
  pos i hi := hw.pos i (hlive i hi).1
  apart := hapart
  recorded i hi := by
    obtain ⟨hlive, hpool, hnew⟩ := hlive i hi
    obtain ⟨key, hkey, hmem, hvalid, hunused⟩ := hw.recorded i hlive
    exact ⟨key, hpool.trans hkey, hkeys ▸ hmem, hvalid, fun h => hunused (hnew key h hkey)⟩
  distinct i j key hi hj hkey hkey' := by
    obtain ⟨hi, hpool, -⟩ := hlive i hi
    obtain ⟨hj, hpool', -⟩ := hlive j hj
    exact hw.distinct i j key hi hj (hpool ▸ hkey) (hpool' ▸ hkey')
  known key hkey := hkeys ▸ hkept key hkey
  unseen n hn := by
    rw [hkeys]
    exact hw.unseen n (hgen ▸ hn)

/-- **A new pool takes the numbers from one on.** -/
theorem Sound.newKeyPool (hw : w.Sound env held kept)
    (hheld : ∀ i ∈ held, ¬ NewKeyPoolWrites env i) :
    SoundBeside env held kept w (w.newKeyPool env).2 := by
  unfold KeyPoolWallet.newKeyPool
  set empty : KeyPoolWallet K := { w with
    pool := fun nIndex => if nIndex ∈ w.setKeyPool then none else w.pool nIndex
    setKeyPool := ∅ } with hdef
  -- emptied, the wallet keeps what is held
  have hempty : SoundBeside env held kept w empty := by
    have hpool : ∀ i ∈ held, empty.pool i = w.pool i := fun i hi => if_neg fun h => hw.apart i h hi
    refine ⟨hw.of_subset (fun i hi => absurd hi (Finset.notMem_empty i)) (fun i hi => ?_)
      hw.known rfl rfl, hpool⟩
    have hi : i ∈ held := hi.resolve_left (Finset.notMem_empty i)
    exact ⟨.inr hi, hpool i hi, fun _ h _ => h⟩
  split
  · exact hempty
  · rename_i hlocked
    have hloop : ∀ n ≤ nKeys env, ∃ w', (List.range n).foldl
        (fun s (i : ℕ) => KeyPoolWallet.addKey env ((i : ℤ) + 1) s) empty = w' ∧
          SoundBeside env held kept w w' ∧ ∀ i ∈ w'.setKeyPool, i ≤ n := by
      intro n
      induction n with
      | zero => exact fun _ => ⟨_, rfl, hempty, fun i hi => absurd hi (Finset.notMem_empty i)⟩
      | succ n ih =>
        intro hn
        obtain ⟨w', hw', hsound, hle⟩ := ih (by omega)
        rw [List.range_succ, List.foldl_append, hw']
        refine ⟨_, rfl, hsound.addKey (by positivity) (fun h => ?_) (fun h => ?_), fun i hi => ?_⟩
        · have := hle _ h
          omega
        · exact hheld _ h ⟨by simpa using hlocked, by omega, by omega⟩
        · rcases Finset.mem_insert.1 hi with rfl | hi
          · push_cast
            omega
          · have := hle i hi
            push_cast
            omega
    obtain ⟨w', hw', hsound, -⟩ := hloop _ le_rfl
    show SoundBeside env held kept w (List.foldl _ _ _)
    rw [hw']
    exact hsound

/-- **Reserving in a sound wallet** never fails: the pool is empty, or the
smallest index leaves it with its key. -/
theorem Sound.reserve [DecidableEq K] (hw : w.Sound env held kept)
    (hheld : ∀ i ∈ held, ¬ w.TopUpWrites env i) :
    ∃ w', SoundBeside env held kept w w' ∧
      (w.reserveKeyFromKeyPool env = ((-1, .ok none), w') ∨
        ∃ i key, i ∈ w'.setKeyPool ∧ w'.pool i = some key ∧ env.isValid key = true ∧
          w.reserveKeyFromKeyPool env =
            ((i, .ok (some key)), { w' with setKeyPool := w'.setKeyPool.erase i })) := by
  obtain ⟨w', hdef⟩ : ∃ w', w' = if env.fLocked then w else (w.topUpKeyPool env).2 := ⟨_, rfl⟩
  have hw' : SoundBeside env held kept w w' := by
    rw [hdef]
    split
    · exact ⟨hw, fun _ _ => rfl⟩
    · exact hw.topUpKeyPool hheld
  refine ⟨w', hw', ?_⟩
  unfold reserveKeyFromKeyPool
  rw [← hdef]
  by_cases hne : w'.setKeyPool.Nonempty
  · obtain ⟨key, hkey, hmem, hvalid, -⟩ := hw'.1.recorded _ (.inl (w'.setKeyPool.min'_mem hne))
    refine .inr ⟨_, key, w'.setKeyPool.min'_mem hne, hkey, hvalid, ?_⟩
    simp only [dif_pos hne, hkey, hmem, hvalid, not_true_eq_false, if_false, Bool.not_true,
      Bool.false_eq_true]
  · exact .inl (dif_neg hne)

end KeyPoolWallet

/-! ## The holders' side -/

namespace KeyPoolState

variable {s s₀ : KeyPoolState H K} {h h' : H} {c : KeyPoolCall H}

/-- `h` has a reserved key out. -/
def Outstanding (s : KeyPoolState H K) (h : H) : Prop := (s.holders h).nIndex ≠ -1

instance : Decidable (s.Outstanding h) := inferInstanceAs (Decidable (_ ≠ _))

/-- The indexes out. -/
def held (s : KeyPoolState H K) : Set ℤ := {i | ∃ h, s.Outstanding h ∧ (s.holders h).nIndex = i}

/-- What the pool is for: each index it may hand out has its record, no two
holders have one index or one key, and nobody has a key that was kept. -/
structure Orderly (kept : List K) (s : KeyPoolState H K) : Prop where
  recorded : ∀ i ∈ s.wallet.setKeyPool, (s.wallet.pool i).isSome
  apart : ∀ h h', s.Outstanding h → s.Outstanding h' → h ≠ h' →
    (s.holders h).nIndex ≠ (s.holders h').nIndex ∧
      (s.holders h).vchPubKey ≠ (s.holders h').vchPubKey
  unused : ∀ h, s.Outstanding h → ∀ key ∈ (s.holders h).vchPubKey, key ∉ kept

/-- The invariant behind it: the wallet's, and that a holder's key is in
its record. -/
structure Sound (env : KeyPoolEnv K) (kept : List K) (s : KeyPoolState H K) : Prop where
  wallet : s.wallet.Sound env s.held kept
  own : ∀ h, s.Outstanding h → s.wallet.pool (s.holders h).nIndex = (s.holders h).vchPubKey
  apart : ∀ h h', s.Outstanding h → s.Outstanding h' →
    (s.holders h).nIndex = (s.holders h').nIndex → h = h'

/-- Nobody has a key out, and the pool is as it is loaded. -/
structure AtRest (env : KeyPoolEnv K) (s : KeyPoolState H K) : Prop where
  wallet : s.wallet.Sound env ∅ []
  none : ∀ h, ¬ s.Outstanding h

theorem AtRest.sound (hs : s.AtRest env) : s.Sound env [] where
  wallet := by
    have hheld : s.held = ∅ := Set.eq_empty_of_forall_notMem fun i hi => hs.none _ hi.choose_spec.1
    rw [hheld]
    exact hs.wallet
  own h hh := absurd hh (hs.none h)
  apart h _ hh := absurd hh (hs.none h)

theorem Sound.orderly (hs : s.Sound env kept) : s.Orderly kept where
  recorded i hi := by
    obtain ⟨key, hkey, -⟩ := hs.wallet.recorded i (.inl hi)
    rw [hkey]
    rfl
  apart h h' hh hh' hne := by
    refine ⟨fun heq => hne (hs.apart h h' hh hh' heq), fun heq => hne (hs.apart h h' hh hh' ?_)⟩
    obtain ⟨key, hkey, -⟩ := hs.wallet.recorded _ (.inr ⟨h, hh, rfl⟩)
    refine hs.wallet.distinct _ _ key (.inr ⟨h, hh, rfl⟩) (.inr ⟨h', hh', rfl⟩) hkey ?_
    rw [hs.own h' hh', ← heq, ← hs.own h hh, hkey]
  unused h hh key hkey := by
    obtain ⟨key', hkey', -, -, hunused⟩ := hs.wallet.recorded _ (.inr ⟨h, hh, rfl⟩)
    rw [hs.own h hh, Option.mem_def.1 hkey, Option.some.injEq] at hkey'
    exact hkey' ▸ hunused

/-- The key a call uses up. -/
def keptBy (s : KeyPoolState H K) : KeyPoolCall H → List K
  | .keepKey h => if (s.holders h).nIndex ≠ -1 then (s.holders h).vchPubKey.toList else []
  | _ => []

/-- The indexes a call writes records at. -/
def Writes (env : KeyPoolEnv K) (s : KeyPoolState H K) : KeyPoolCall H → ℤ → Prop
  | .getReservedKey h, i => (s.holders h).nIndex = -1 ∧ s.wallet.TopUpWrites env i
  | .topUpKeyPool, i => s.wallet.TopUpWrites env i
  | .newKeyPool, i => KeyPoolWallet.NewKeyPoolWrites env i
  | .keepKey _, _ | .returnKey _, _ => False

instance {w : KeyPoolWallet K} {i : ℤ} : Decidable (w.TopUpWrites env i) :=
  inferInstanceAs (Decidable (_ ∧ _))

instance {i : ℤ} : Decidable (KeyPoolWallet.NewKeyPoolWrites env i) :=
  inferInstanceAs (Decidable (_ ∧ _))

instance {i : ℤ} : Decidable (s.Writes env c i) :=
  match c with
  | .getReservedKey _ => inferInstanceAs (Decidable (_ ∧ _))
  | .topUpKeyPool => inferInstanceAs (Decidable (s.wallet.TopUpWrites env i))
  | .newKeyPool => inferInstanceAs (Decidable (KeyPoolWallet.NewKeyPoolWrites env i))
  | .keepKey _ | .returnKey _ => inferInstanceAs (Decidable False)

/-- No record is written at an index somebody still holds. -/
def Undisturbed (env : KeyPoolEnv K) (s : KeyPoolState H K) (c : KeyPoolCall H) : Prop :=
  ∀ h, s.Outstanding h → ¬ s.Writes env c (s.holders h).nIndex

instance [Fintype H] : Decidable (s.Undisturbed env c) :=
  inferInstanceAs (Decidable (∀ _, _))

section Calls

variable [DecidableEq K] [DecidableEq H]

/-- The states calls lead to from `s₀`, each of them allowed by `ok`, with
the keys used up on the way. -/
inductive Run (env : KeyPoolEnv K) (ok : KeyPoolState H K → KeyPoolCall H → Prop)
    (s₀ : KeyPoolState H K) : List K → KeyPoolState H K → Prop
  | start : Run env ok s₀ [] s₀
  | call {kept : List K} {s : KeyPoolState H K} (hs : Run env ok s₀ kept s) (c : KeyPoolCall H)
      (hc : ok s c) : Run env ok s₀ (s.keptBy c ++ kept) (s.call env c)

omit [DecidableEq K] [DecidableEq H] in
/-- A wallet that changed beside its holders. -/
theorem Sound.of_wallet {wallet : KeyPoolWallet K} (hs : s.Sound env kept)
    (hw : KeyPoolWallet.SoundBeside env s.held kept s.wallet wallet) :
    Sound env kept { s with wallet } where
  wallet := hw.1
  own h hh := (hw.2 _ ⟨h, hh, rfl⟩).trans (hs.own h hh)
  apart := hs.apart

omit [DecidableEq K] in
/-- Who holds a key once `h` holds something else. -/
theorem outstanding_update {wallet : KeyPoolWallet K} {r : CReserveKey K}
    (hout : (⟨wallet, Function.update s.holders h r⟩ : KeyPoolState H K).Outstanding h') :
    h' = h ∧ r.nIndex ≠ -1 ∨ h' ≠ h ∧ s.Outstanding h' := by
  change (Function.update s.holders h r h').nIndex ≠ -1 at hout
  by_cases hh : h' = h
  · subst hh
    rw [Function.update_self] at hout
    exact .inl ⟨rfl, hout⟩
  · rw [Function.update_of_ne hh] at hout
    exact .inr ⟨hh, hout⟩

omit [DecidableEq K] in
/-- What is out then. -/
theorem mem_held_update {wallet : KeyPoolWallet K} {r : CReserveKey K} {i : ℤ}
    (hi : i ∈ (⟨wallet, Function.update s.holders h r⟩ : KeyPoolState H K).held) :
    r.nIndex ≠ -1 ∧ r.nIndex = i ∨ ∃ h', h' ≠ h ∧ s.Outstanding h' ∧ (s.holders h').nIndex = i := by
  obtain ⟨h', hout, heq⟩ := hi
  change (Function.update s.holders h r h').nIndex = i at heq
  rcases outstanding_update hout with ⟨rfl, hr⟩ | ⟨hne, hout⟩
  · rw [Function.update_self] at heq
    exact .inl ⟨hr, heq⟩
  · rw [Function.update_of_ne hne] at heq
    exact .inr ⟨h', hne, hout, heq⟩

omit [DecidableEq K] in
/-- **One holder changes**, and the wallet with it: the others keep their
records, and none of them has the new index. -/
theorem Sound.update {wallet : KeyPoolWallet K} {r : CReserveKey K} {kept' : List K}
    (hs : s.Sound env kept)
    (hw : wallet.Sound env
      (⟨wallet, Function.update s.holders h r⟩ : KeyPoolState H K).held kept')
    (hown : r.nIndex ≠ -1 → wallet.pool r.nIndex = r.vchPubKey)
    (hother : ∀ h', h' ≠ h → s.Outstanding h' → (s.holders h').nIndex ≠ r.nIndex ∧
      wallet.pool (s.holders h').nIndex = s.wallet.pool (s.holders h').nIndex) :
    Sound env kept' ⟨wallet, Function.update s.holders h r⟩ where
  wallet := hw
  own h' hh' := by
    show wallet.pool (Function.update s.holders h r h').nIndex =
      (Function.update s.holders h r h').vchPubKey
    rcases outstanding_update hh' with ⟨rfl, hr⟩ | ⟨hne, hout⟩
    · rw [Function.update_self]
      exact hown hr
    · rw [Function.update_of_ne hne, (hother h' hne hout).2]
      exact hs.own h' hout
  apart h₁ h₂ hh₁ hh₂ heq := by
    change (Function.update s.holders h r h₁).nIndex =
      (Function.update s.holders h r h₂).nIndex at heq
    rcases outstanding_update hh₁ with ⟨rfl, -⟩ | ⟨hne₁, hout₁⟩ <;>
      rcases outstanding_update hh₂ with ⟨rfl, -⟩ | ⟨hne₂, hout₂⟩
    · rfl
    · rw [Function.update_self, Function.update_of_ne hne₂] at heq
      exact absurd heq.symm (hother h₂ hne₂ hout₂).1
    · rw [Function.update_self, Function.update_of_ne hne₁] at heq
      exact absurd heq (hother h₁ hne₁ hout₁).1
    · rw [Function.update_of_ne hne₁, Function.update_of_ne hne₂] at heq
      exact hs.apart h₁ h₂ hout₁ hout₂ heq

omit [DecidableEq K] in
/-- What is out once `h` has let go: what was out, but for its index. -/
theorem mem_held_new {wallet : KeyPoolWallet K} {i : ℤ} (hs : s.Sound env kept)
    (hi : i ∈ (⟨wallet, Function.update s.holders h .new⟩ : KeyPoolState H K).held) :
    i ∈ s.held ∧ (s.Outstanding h → i ≠ (s.holders h).nIndex) := by
  rcases mem_held_update hi with ⟨hr, -⟩ | ⟨h', hne, hout, rfl⟩
  · exact absurd rfl hr
  · exact ⟨⟨h', hout, rfl⟩, fun hh heq => hne (hs.apart h' h hout hh heq)⟩

omit [DecidableEq K] in
/-- **A holder lets go** of its index, in a wallet that goes on with the
records of the others. -/
theorem Sound.release {wallet : KeyPoolWallet K} {kept' : List K} (hs : s.Sound env kept)
    (hw : wallet.Sound env
      (⟨wallet, Function.update s.holders h .new⟩ : KeyPoolState H K).held kept')
    (hpool : ∀ i ∈ s.held, (s.Outstanding h → i ≠ (s.holders h).nIndex) →
      wallet.pool i = s.wallet.pool i) :
    Sound env kept' ⟨wallet, Function.update s.holders h .new⟩ := by
  refine hs.update hw (fun h => absurd rfl h) fun h' hne hout => ⟨hout, ?_⟩
  exact hpool _ ⟨h', hout, rfl⟩ fun hh heq => hne (hs.apart h' h hout hh heq)

omit [DecidableEq K] in
/-- Letting go of nothing, or without a word to the wallet. -/
theorem Sound.forget (hs : s.Sound env kept) :
    Sound env kept ⟨s.wallet, Function.update s.holders h .new⟩ := by
  refine hs.release (hs.wallet.of_subset (fun i hi hheld => ?_) (fun i hi => ?_)
    hs.wallet.known rfl rfl) fun _ _ _ => rfl
  · exact hs.wallet.apart i hi (mem_held_new hs hheld).1
  · exact ⟨hi.imp_right fun hi => (mem_held_new hs hi).1, rfl, fun _ hk _ => hk⟩

omit [DecidableEq K] in
/-- **Keeping a key** takes its record away and its index out of use. -/
theorem Sound.keepKey (hs : s.Sound env kept) :
    (s.keepKey env h).Sound env (s.keptBy (.keepKey h) ++ kept) := by
  unfold KeyPoolState.keepKey
  show Sound env ((if s.Outstanding h then (s.holders h).vchPubKey.toList else []) ++ kept)
    ⟨if s.Outstanding h then s.wallet.keepKey env (s.holders h).nIndex else s.wallet, _⟩
  by_cases hout : s.Outstanding h
  · rw [if_pos hout, if_pos hout]
    have hlive : (s.holders h).nIndex ∈ s.held := ⟨h, hout, rfl⟩
    obtain ⟨key, hkey, hmem, -, -⟩ := hs.wallet.recorded _ (.inr hlive)
    have hown := hs.own h hout
    rw [hkey] at hown
    -- every other record stays, whether or not the wallet is a file
    have hpool : ∀ i, i ≠ (s.holders h).nIndex →
        (s.wallet.keepKey env (s.holders h).nIndex).pool i = s.wallet.pool i := by
      intro i hi
      unfold KeyPoolWallet.keepKey
      split
      · exact Function.update_of_ne hi ..
      · rfl
    have hsame : (s.wallet.keepKey env (s.holders h).nIndex).setKeyPool = s.wallet.setKeyPool ∧
        (s.wallet.keepKey env (s.holders h).nIndex).mapKeys = s.wallet.mapKeys ∧
        (s.wallet.keepKey env (s.holders h).nIndex).nGenerated = s.wallet.nGenerated := by
      unfold KeyPoolWallet.keepKey
      split <;> exact ⟨rfl, rfl, rfl⟩
    rw [← hown]
    refine hs.release (hs.wallet.of_subset (fun i hi hheld => ?_) (fun i hi => ?_) ?_ hsame.2.1
      hsame.2.2) fun i _ hi => hpool i (hi hout)
    · rw [hsame.1] at hi
      exact hs.wallet.apart i hi (mem_held_new hs hheld).1
    · have hi' : (i ∈ s.wallet.setKeyPool ∨ i ∈ s.held) ∧ i ≠ (s.holders h).nIndex := by
        rcases hi with hi | hi
        · rw [hsame.1] at hi
          exact ⟨.inl hi, fun heq => hs.wallet.apart i hi (heq ▸ hlive)⟩
        · exact ⟨.inr (mem_held_new hs hi).1, (mem_held_new hs hi).2 hout⟩
      refine ⟨hi'.1, hpool i hi'.2, fun k hk hki => ?_⟩
      rcases List.mem_cons.1 hk with rfl | hk
      · exact absurd (hs.wallet.distinct _ _ k hi'.1 (.inr hlive) hki hkey) hi'.2
      · exact hk
    · intro k hk
      rcases List.mem_cons.1 hk with rfl | hk
      · exact hmem
      · exact hs.wallet.known k hk
  · rw [if_neg hout, if_neg hout, List.nil_append]
    exact hs.forget

omit [DecidableEq K] in
/-- **Giving a key back** puts its index into the set again. -/
theorem Sound.returnKey (hs : s.Sound env kept) : (s.returnKey h).Sound env kept := by
  unfold KeyPoolState.returnKey
  show Sound env kept
    ⟨if s.Outstanding h then s.wallet.returnKey (s.holders h).nIndex else s.wallet, _⟩
  by_cases hout : s.Outstanding h
  · rw [if_pos hout]
    have hlive : (s.holders h).nIndex ∈ s.held := ⟨h, hout, rfl⟩
    refine hs.release (hs.wallet.of_subset (fun i hi hheld => ?_) (fun i hi => ?_)
      hs.wallet.known rfl rfl) fun _ _ _ => rfl
    · obtain ⟨hheld, hne⟩ := mem_held_new hs hheld
      rcases Finset.mem_insert.1 hi with rfl | hi
      · exact hne hout rfl
      · exact hs.wallet.apart i hi hheld
    · refine ⟨?_, rfl, fun _ hk _ => hk⟩
      rcases hi with hi | hi
      · rcases Finset.mem_insert.1 hi with rfl | hi
        · exact .inr hlive
        · exact .inl hi
      · exact .inr (mem_held_new hs hi).1
  · rw [if_neg hout]
    exact hs.forget

/-- Where a key was asked for already, nothing happens. -/
theorem getReservedKey_of_outstanding (hout : s.Outstanding h) : (s.getReservedKey env h).2 = s := by
  unfold KeyPoolState.getReservedKey
  simp only [if_neg hout]
  split <;> rfl

/-- Where none was, what the pool gave is the holder's, and the default key
where it gave none. -/
theorem getReservedKey_of_idle {i : ℤ} {key : Option K} {w : KeyPoolWallet K}
    (hidle : ¬ s.Outstanding h)
    (hreserve : s.wallet.reserveKeyFromKeyPool env = ((i, .ok key), w)) :
    (s.getReservedKey env h).2 =
      ⟨w, Function.update s.holders h ⟨i, if i ≠ -1 then key else some env.vchDefaultKey⟩⟩ := by
  have hidle : (s.holders h).nIndex = -1 := not_not.1 hidle
  unfold KeyPoolState.getReservedKey
  simp only [hidle, hreserve, if_true]
  split <;> rfl

/-- **Taking a key out** of a pool that was topped up beside the others:
the record is there and good, and nobody else has its index. -/
theorem Sound.getReservedKey (hs : s.Sound env kept) (hc : s.Undisturbed env (.getReservedKey h)) :
    (s.getReservedKey env h).2.Sound env kept := by
  by_cases hout : s.Outstanding h
  · rw [getReservedKey_of_outstanding hout]
    exact hs
  have hidle : (s.holders h).nIndex = -1 := not_not.1 hout
  obtain ⟨w', hw', hreserve⟩ := hs.wallet.reserve fun i hi => by
    obtain ⟨h', hout, rfl⟩ := hi
    exact fun hwrites => hc h' hout ⟨hidle, hwrites⟩
  have hs' := hs.of_wallet hw'
  -- what is out afterwards is the new index, or was out before
  have hheld : ∀ {w : KeyPoolWallet K} {r : CReserveKey K} {i : ℤ},
      i ∈ (⟨w, Function.update s.holders h r⟩ : KeyPoolState H K).held →
        r.nIndex ≠ -1 ∧ r.nIndex = i ∨ i ∈ s.held := by
    intro w r i hi
    exact (mem_held_update hi).imp_right fun ⟨h', _, hout, heq⟩ => ⟨h', hout, heq⟩
  rcases hreserve with heq | ⟨i, key, hi, hkey, -, heq⟩
  · -- the pool is empty, and the default key nobody's reservation
    rw [getReservedKey_of_idle hout heq]
    have hold : ∀ i ∈ (⟨w', Function.update s.holders h ⟨-1, some env.vchDefaultKey⟩⟩ :
        KeyPoolState H K).held, i ∈ s.held := fun i hi =>
      (hheld hi).resolve_left fun hnew => hnew.1 rfl
    refine hs'.update (hw'.1.of_subset (fun i hi hi' => hw'.1.apart i hi (hold i hi'))
      (fun i hi => ⟨hi.imp_right (hold i), rfl, fun _ hk _ => hk⟩) hw'.1.known rfl rfl)
      (fun h => absurd rfl h) fun h' _ hout => ⟨hout, rfl⟩
  · have hpos : i ≠ -1 := by
      have := hw'.1.pos i (.inl hi)
      omega
    rw [getReservedKey_of_idle hout heq, if_pos hpos]
    refine hs'.update (hw'.1.of_subset (fun j hj hj' => ?_) (fun j hj => ?_) hw'.1.known rfl rfl)
      (fun _ => hkey) fun h' _ hout => ⟨fun heq => ?_, rfl⟩
    · obtain ⟨hne, hj⟩ := Finset.mem_erase.1 hj
      rcases hheld hj' with ⟨-, rfl⟩ | hj'
      · exact hne rfl
      · exact hw'.1.apart j hj hj'
    · refine ⟨?_, rfl, fun _ hk _ => hk⟩
      rcases hj with hj | hj
      · exact .inl (Finset.mem_of_mem_erase hj)
      · rcases hheld hj with ⟨-, rfl⟩ | hj
        · exact .inl hi
        · exact .inr hj
    · exact hw'.1.apart i hi ⟨h', hout, heq⟩

/-- **A call that disturbs nobody** keeps the pool sound. -/
theorem Sound.call (hs : s.Sound env kept) (hc : s.Undisturbed env c) :
    (s.call env c).Sound env (s.keptBy c ++ kept) := by
  have hheld : ∀ {P : ℤ → Prop}, (∀ h, s.Outstanding h → ¬ P (s.holders h).nIndex) →
      ∀ i ∈ s.held, ¬ P i := by
    rintro P hP i ⟨h, hout, rfl⟩
    exact hP h hout
  cases c with
  | getReservedKey h => exact hs.getReservedKey hc
  | keepKey h => exact hs.keepKey
  | returnKey h => exact hs.returnKey
  | topUpKeyPool => exact hs.of_wallet (hs.wallet.topUpKeyPool (hheld hc))
  | newKeyPool => exact hs.of_wallet (hs.wallet.newKeyPool (hheld hc))

/-- **A run that disturbs nobody** keeps it sound throughout. -/
theorem AtRest.sound_of_run (h₀ : s₀.AtRest env) (h : Run env (Undisturbed env) s₀ kept s) :
    s.Sound env kept := by
  induction h with
  | start => exact h₀.sound
  | call _ c hc ih => exact ih.call hc

/-- **The pool is orderly in every run that disturbs nobody**: each index it
may hand out has its record, no two reservations have one index or one key,
and a key that was kept is nobody's again. -/
theorem orderly_of_undisturbed (h₀ : s₀.AtRest env)
    (h : Run env (Undisturbed env) s₀ kept s) : s.Orderly kept :=
  (h₀.sound_of_run h).orderly

end Calls

end KeyPoolState

/-! ## A wallet with two holders -/

namespace TwoHolders

open KeyPoolState

/-- A wallet just made, its keys numbered as they come. -/
def settings (nKeypool : ℤ) : KeyPoolEnv ℕ where
  newKey := id
  newKey_injective := Function.injective_id
  isValid _ := true
  isValid_newKey _ := rfl
  nKeypool
  fLocked := false
  fFileBacked := true
  vchDefaultKey := 100

def start : KeyPoolState Bool ℕ := ⟨⟨∅, fun _ => none, [], 0⟩, fun _ => .new⟩

theorem atRest {nKeypool : ℤ} : start.AtRest (settings nKeypool) where
  wallet := by constructor <;> simp [start]
  none _ h := h rfl

/-- One key is kept and another returned and taken again, with three to
spare. -/
theorem orderly_example : ∃ kept s, kept = [0] ∧ s.holders false = ⟨2, some 1⟩ ∧
    KeyPoolState.Orderly (H := Bool) kept s := by
  have hstart : Run (settings 3) (Undisturbed (settings 3)) start [] start := .start
  have hrun := (((hstart.call
    (.getReservedKey true) (by decide)).call
    (.getReservedKey false) (by decide)).call
    (.keepKey true) (by decide)).call
    (.returnKey false) (by decide) |>.call
    (.getReservedKey false) (by decide)
  exact ⟨_, _, by decide, by decide, orderly_of_undisturbed atRest hrun⟩

/-- **With no key to spare, two holders are given one index.** -/
theorem disorder : ¬ ∀ (env : KeyPoolEnv ℕ) (s₀ : KeyPoolState Bool ℕ), s₀.AtRest env →
    ∀ kept s, Run env (fun _ _ => True) s₀ kept s → s.Orderly kept := by
  intro h
  have hrun := h (settings 0) start atRest _ _
    ((Run.start.call (.getReservedKey true) trivial).call (.getReservedKey false) trivial)
  have happart := (hrun.apart true false (by decide) (by decide) (by decide)).1
  exact happart (by decide)

end TwoHolders

end CryptoBullion
