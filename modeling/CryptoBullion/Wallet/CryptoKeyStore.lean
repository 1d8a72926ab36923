import CryptoBullion.Model.CryptoKeyStore
/-!
# What encryption changes

After `EncryptKeys` the store holds the same keys as before, each encrypted
under the master key; `Lock`, `Unlock` and `AddKey` keep it so, as long as
nothing is encrypted under another master key. A store without keys lets
any master key in.
-/

namespace CryptoBullion

variable [P : Platform] [K : KeyCrypto]

variable {s s' : CCryptoKeyStore} {plain : KeyMap} {mk k : List UInt8} {key : CKey} {id : CKeyID}

/-- An entry is a key of the plain store, encrypted under `mk`. -/
def Encrypts (mk : List UInt8) (key : CSecret × Bool) (entry : List UInt8 × List UInt8) : Prop :=
  entry.1 = K.pubKey key.1 key.2 ∧ encryptSecret mk key.1 (P.hash entry.1) = some entry.2

/-- **The store holds the keys of `plain`, encrypted**, and no other master
key is in use where there are any. -/
structure CCryptoKeyStore.Mirrors (mk : List UInt8) (s : CCryptoKeyStore) (plain : KeyMap) : Prop where
  fUseCrypto : s.fUseCrypto = true
  mapKeys : s.mapKeys = ∅
  keys : ∀ id : CKeyID, Option.Rel (Encrypts mk) plain[id]? s.mapCryptedKeys[id]?
  vMasterKey : s.vMasterKey = [] ∨ s.vMasterKey = mk ∨ s.mapCryptedKeys = ∅

/-! ## Opening what was encrypted -/

/-- **What was encrypted opens** under the same key. -/
theorem openSecret_of_encrypts {key : CSecret × Bool} {entry : List UInt8 × List UInt8}
    (h : Encrypts mk key entry) : openSecret mk entry = some key.1 := by
  obtain ⟨hpub, henc⟩ := h
  unfold encryptSecret at henc
  split_ifs at henc with hlen
  have hdec : decryptSecret mk entry.2 (P.hash entry.1) = some key.1.1 := by
    unfold decryptSecret
    rw [if_pos hlen]
    exact K.decrypt_encrypt _ _ _ _ henc
  unfold openSecret
  rw [hdec]
  dsimp only
  rw [dif_pos key.1.2]

/-- Nothing opens without a master key. -/
theorem openSecret_nil (entry : List UInt8 × List UInt8) : openSecret [] entry = none := by
  unfold openSecret decryptSecret
  simp

omit P in
/-- The size of a public key tells the flag. -/
theorem setKey_of_pubKey (secret : CSecret) (fCompressed : Bool) :
    setKey false (K.pubKey secret fCompressed) secret = ⟨secret, fCompressed⟩ := by
  unfold setKey
  rw [K.length_pubKey]
  cases fCompressed <;> rfl

/-- So the master key is let in by every key. -/
theorem opens_of_encrypts {key : CSecret × Bool} {entry : List UInt8 × List UInt8}
    (h : Encrypts mk key entry) : CCryptoKeyStore.opens mk entry = true := by
  unfold CCryptoKeyStore.opens
  rw [openSecret_of_encrypts h]
  dsimp only
  rw [h.1, setKey_of_pubKey]
  exact decide_eq_true rfl

namespace CCryptoKeyStore

omit P K in
theorem setCrypted_of_fUseCrypto (h : s.fUseCrypto = true) : s.setCrypted = (true, s) := by
  unfold setCrypted
  rw [if_pos h]

omit P K in
theorem isLocked_of_fUseCrypto (h : s.fUseCrypto = true) : s.isLocked = s.vMasterKey.isEmpty := by
  unfold isLocked isCrypted
  rw [if_pos h]

/-! ## The operations -/

omit P K in
theorem lock_of_fUseCrypto (h : s.fUseCrypto = true) :
    s.lock = (true, { s with vMasterKey := [] }) := by
  unfold lock
  rw [setCrypted_of_fUseCrypto h]

theorem unlock_of_fUseCrypto (h : s.fUseCrypto = true) : s.unlock k =
    if (s.mapCryptedKeys.toList.head?.map fun e => opens k e.2).getD true then
      (true, { s with vMasterKey := k })
    else (false, s) := by
  unfold unlock
  rw [setCrypted_of_fUseCrypto h]

theorem addKey_of_fUseCrypto (h : s.fUseCrypto = true) : s.addKey key =
    if s.vMasterKey.isEmpty then (false, s)
    else match encryptSecret s.vMasterKey key.secret (P.hash key.getPubKey) with
      | none => (false, s)
      | some c => (true, { s with
          mapCryptedKeys := s.mapCryptedKeys.insert (getID key.getPubKey) (key.getPubKey, c) }) := by
  have hcrypted : ¬ (!s.isCrypted) = true := by simp [isCrypted, h]
  unfold addKey addCryptedKey
  rewrite [if_neg hcrypted, isLocked_of_fUseCrypto h, setCrypted_of_fUseCrypto h]
  rfl

namespace Mirrors

/-! ## The answers -/

theorem keys_cases (h : s.Mirrors mk plain) (id : CKeyID) :
    plain[id]? = none ∧ s.mapCryptedKeys[id]? = none ∨
      ∃ key entry, plain[id]? = some key ∧ s.mapCryptedKeys[id]? = some entry ∧
        Encrypts mk key entry := by
  have hrel := h.keys id
  generalize plain[id]? = a at hrel ⊢
  generalize s.mapCryptedKeys[id]? = b at hrel ⊢
  cases hrel with
  | some hkey => exact .inr ⟨_, _, rfl, rfl, hkey⟩
  | none => exact .inl ⟨rfl, rfl⟩

theorem mem_iff (h : s.Mirrors mk plain) : id ∈ s.mapCryptedKeys ↔ id ∈ plain := by
  rw [← Std.ExtTreeMap.isSome_getElem?_iff_mem, ← Std.ExtTreeMap.isSome_getElem?_iff_mem]
  rcases h.keys_cases id with ⟨h₁, h₂⟩ | ⟨key, entry, h₁, h₂, -⟩
  · simp [h₁, h₂]
  · simp [h₁, h₂]

theorem haveKey (h : s.Mirrors mk plain) (id : CKeyID) : s.haveKey id = plain.haveKey id := by
  unfold CCryptoKeyStore.haveKey KeyMap.haveKey isCrypted
  rw [h.fUseCrypto, Bool.eq_iff_iff]
  simpa using h.mem_iff

theorem getKeys (h : s.Mirrors mk plain) : s.getKeys = plain.getKeys := by
  unfold CCryptoKeyStore.getKeys KeyMap.getKeys isCrypted
  rw [h.fUseCrypto]
  ext id
  simpa using h.mem_iff

theorem getPubKey (h : s.Mirrors mk plain) (id : CKeyID) :
    s.getPubKey id = plain.getPubKey id := by
  unfold CCryptoKeyStore.getPubKey KeyMap.getPubKey KeyMap.getKey isCrypted
  rw [h.fUseCrypto]
  rcases h.keys_cases id with ⟨h₁, h₂⟩ | ⟨key, entry, h₁, h₂, hkey⟩
  · rw [h₁, h₂]
    rfl
  · rw [h₁, h₂]
    exact congrArg some hkey.1

/-- **Unlocked, the secrets come out** into a key object that is not in
use. -/
theorem getKey (h : s.Mirrors mk plain) (hlock : s.isLocked = false) (id : CKeyID) :
    s.getKey id false = plain.getKey id := by
  unfold CCryptoKeyStore.getKey KeyMap.getKey isCrypted
  rw [h.fUseCrypto]
  rcases h.keys_cases id with ⟨h₁, h₂⟩ | ⟨key, entry, h₁, h₂, hkey⟩
  · rw [h₁, h₂]
    rfl
  · have hmk : s.vMasterKey = mk := by
      rw [isLocked_of_fUseCrypto h.fUseCrypto] at hlock
      rcases h.vMasterKey with hnil | hmk | hempty
      · rw [hnil] at hlock
        exact absurd hlock (by simp)
      · exact hmk
      · rw [hempty] at h₂
        exact absurd h₂ (by simp)
    rw [h₁, h₂, hmk]
    simp only [Bool.not_true, Bool.false_eq_true, if_false, Option.bind_some,
      openSecret_of_encrypts hkey, Option.map_some, hkey.1, setKey_of_pubKey]

/-- **Locked, none does.** -/
theorem getKey_of_isLocked (h : s.Mirrors mk plain) (hlock : s.isLocked = true) (id : CKeyID)
    (fCompressedOut : Bool) : s.getKey id fCompressedOut = none := by
  rw [isLocked_of_fUseCrypto h.fUseCrypto, List.isEmpty_iff] at hlock
  unfold CCryptoKeyStore.getKey isCrypted
  rw [h.fUseCrypto, hlock]
  cases s.mapCryptedKeys[id]? <;> simp [openSecret_nil]

/-- **The master key is let in.** -/
theorem unlock_self (h : s.Mirrors mk plain) : (s.unlock mk).1 = true := by
  rw [unlock_of_fUseCrypto h.fUseCrypto]
  rcases hhead : s.mapCryptedKeys.toList.head? with _ | ⟨id, entry⟩
  · rfl
  · have hmem : s.mapCryptedKeys[id]? = some entry := by
      rw [← Std.ExtTreeMap.mem_toList_iff_getElem?_eq_some]
      exact List.mem_of_head? hhead
    rcases h.keys_cases id with ⟨-, hnone⟩ | ⟨key, entry', -, h₂, hkey⟩
    · rw [hmem] at hnone
      exact absurd hnone (by simp)
    · obtain rfl := Option.some.inj (hmem.symm.trans h₂)
      simp [opens_of_encrypts hkey]

/-! ## What keeps it so -/

theorem lock (h : s.Mirrors mk plain) : s.lock.2.Mirrors mk plain := by
  rw [lock_of_fUseCrypto h.fUseCrypto]
  exact { h with vMasterKey := .inl rfl }

/-- Another master key may be in use while there are no keys. -/
theorem unlock (h : s.Mirrors mk plain) (hk : k = mk ∨ s.mapCryptedKeys = ∅ ∨
    (s.unlock k).1 = false) : (s.unlock k).2.Mirrors mk plain := by
  rw [unlock_of_fUseCrypto h.fUseCrypto] at hk ⊢
  split_ifs at hk ⊢ with hopen
  · refine { h with vMasterKey := ?_ }
    rcases hk with rfl | hempty | hfalse
    · exact .inr (.inl rfl)
    · exact .inr (.inr hempty)
    · exact absurd hfalse (by simp)
  · exact h

/-- A key that is added is encrypted under the master key. -/
theorem addKey (h : s.Mirrors mk plain) (hmk : s.isLocked = true ∨ s.vMasterKey = mk) :
    (s.addKey key).2.Mirrors mk (if (s.addKey key).1 then plain.addKey key else plain) := by
  rw [isLocked_of_fUseCrypto h.fUseCrypto] at hmk
  rw [addKey_of_fUseCrypto h.fUseCrypto]
  by_cases hlocked : s.vMasterKey.isEmpty = true
  · rw [if_pos hlocked]
    exact h
  rw [if_neg hlocked]
  have hmk := hmk.resolve_left hlocked
  rcases henc : encryptSecret s.vMasterKey key.secret (P.hash key.getPubKey) with _ | c
  · exact h
  refine ⟨h.fUseCrypto, h.mapKeys, fun id => ?_, .inr (.inl hmk)⟩
  simp only [if_true, KeyMap.addKey, Std.ExtTreeMap.getElem?_insert]
  split_ifs
  · exact .some ⟨rfl, hmk ▸ henc⟩
  · exact h.keys id

end Mirrors

/-! ## EncryptKeys -/

/-- Every key of a store is under its own hash, and no master key is set
before it is encrypted. -/
inductive Unencrypted : CCryptoKeyStore → Prop
  | new : Unencrypted new
  | addKey {s : CCryptoKeyStore} (h : Unencrypted s) (key : CKey) : Unencrypted (s.addKey key).2

theorem Unencrypted.filed (h : Unencrypted s) : s.fUseCrypto = false ∧ s.vMasterKey = [] ∧
    s.mapCryptedKeys = ∅ ∧ ∀ (id : CKeyID) (key : CSecret × Bool), s.mapKeys[id]? = some key →
      getID (K.pubKey key.1 key.2) = id := by
  induction h with
  | new => exact ⟨rfl, rfl, rfl, by simp [CCryptoKeyStore.new]⟩
  | @addKey s h key ih =>
    obtain ⟨hcrypto, hmaster, hempty, hkeys⟩ := ih
    have heq : s.addKey key = (true, { s with mapKeys := s.mapKeys.addKey key }) := by
      unfold CCryptoKeyStore.addKey isCrypted
      rw [hcrypto]
      rfl
    rw [heq]
    refine ⟨hcrypto, hmaster, hempty, fun id key' hkey => ?_⟩
    simp only [KeyMap.addKey, Std.ExtTreeMap.getElem?_insert, Std.compare_eq_iff_eq] at hkey
    split_ifs at hkey with hid
    · rw [← Option.some.inj hkey]
      exact hid
    · exact hkeys id key' hkey

/-- **The loop of `EncryptKeys`** encrypts what it comes to and leaves the
rest. -/
theorem encryptLoop_spec : ∀ {l : List (CKeyID × CSecret × Bool)} {s s' : CCryptoKeyStore},
    s.fUseCrypto = true → (∀ e ∈ l, getID (K.pubKey e.2.1 e.2.2) = e.1) →
    (l.map (·.1)).Nodup → encryptLoop mk l s = (true, s') →
      s'.fUseCrypto = true ∧ s'.vMasterKey = s.vMasterKey ∧
        (∀ e ∈ l, ∃ entry, s'.mapCryptedKeys[e.1]? = some entry ∧ Encrypts mk e.2 entry) ∧
        ∀ id : CKeyID, id ∉ l.map (·.1) → s'.mapCryptedKeys[id]? = s.mapCryptedKeys[id]?
  | [], s, s', hcrypto, _, _, h => by
    obtain ⟨-, rfl⟩ := Prod.mk.inj h
    exact ⟨hcrypto, rfl, by simp, fun _ _ => rfl⟩
  | (id, secret, fCompressed) :: rest, s, s', hcrypto, hfiled, hnodup, h => by
    rw [List.map_cons, List.nodup_cons] at hnodup
    unfold encryptLoop at h
    dsimp only at h
    rcases henc : encryptSecret mk secret (P.hash (K.pubKey secret fCompressed)) with _ | c
    · rw [henc] at h
      exact absurd (Prod.mk.inj h).1 (by simp)
    have hid : getID (K.pubKey secret fCompressed) = id := hfiled _ List.mem_cons_self
    rw [henc] at h
    simp only [addCryptedKey, setCrypted_of_fUseCrypto hcrypto, hid] at h
    obtain ⟨hcrypto', hmaster, hdone, hrest⟩ := encryptLoop_spec (s := { s with
        mapCryptedKeys := s.mapCryptedKeys.insert id (K.pubKey secret fCompressed, c) }) hcrypto
      (fun e he => hfiled e (List.mem_cons_of_mem _ he)) hnodup.2 h
    refine ⟨hcrypto', hmaster, fun e he => ?_, fun id' hid' => ?_⟩
    · rcases List.mem_cons.1 he with rfl | he
      · refine ⟨(K.pubKey secret fCompressed, c), ?_, rfl, henc⟩
        rw [hrest id hnodup.1]
        exact Std.ExtTreeMap.getElem?_insert_self
      · exact hdone e he
    · rw [List.map_cons, List.mem_cons, not_or] at hid'
      rw [hrest id' hid'.2, Std.ExtTreeMap.getElem?_insert, if_neg]
      simpa using Ne.symm hid'.1

/-- **`EncryptKeys` that returns true** has encrypted every key. -/
theorem Unencrypted.mirrors (h : Unencrypted s) (henc : s.encryptKeys mk = (true, s')) :
    s'.Mirrors mk s.mapKeys := by
  obtain ⟨hcrypto, hmaster, hempty, hfiled⟩ := h.filed
  have hcan : ¬ (!s.mapCryptedKeys.isEmpty || s.isCrypted) = true := by
    simp [isCrypted, hcrypto, hempty]
  unfold encryptKeys at henc
  rw [if_neg hcan] at henc
  rcases hloop : encryptLoop mk s.mapKeys.toList { s with fUseCrypto := true } with ⟨_ | _, s₁⟩
  · rw [hloop] at henc
    exact absurd (Prod.mk.inj henc).1 (by simp)
  rw [hloop] at henc
  obtain ⟨-, rfl⟩ := Prod.mk.inj henc
  have hnodup : (s.mapKeys.toList.map (·.1)).Nodup := by
    rw [Std.ExtTreeMap.map_fst_toList_eq_keys]
    refine List.Pairwise.imp (fun {a b} hne heq => ?_) Std.ExtTreeMap.distinct_keys
    exact hne (Std.compare_eq_iff_eq.2 heq)
  obtain ⟨hcrypto', hmaster', hdone, hrest⟩ := encryptLoop_spec rfl
    (fun e he => hfiled e.1 e.2 (Std.ExtTreeMap.mem_toList_iff_getElem?_eq_some.1 he)) hnodup hloop
  refine ⟨hcrypto', rfl, fun id => ?_, .inl (hmaster'.trans hmaster)⟩
  rcases hkey : s.mapKeys[id]? with _ | key
  · have hnot : id ∉ s.mapKeys.toList.map (·.1) := by
      rw [Std.ExtTreeMap.map_fst_toList_eq_keys, Std.ExtTreeMap.mem_keys,
        ← Std.ExtTreeMap.isSome_getElem?_iff_mem, hkey]
      simp
    rw [hrest id hnot, hempty, Std.ExtTreeMap.getElem?_empty]
    exact .none
  · obtain ⟨entry, hentry, henc'⟩ := hdone (id, key)
      (Std.ExtTreeMap.mem_toList_iff_getElem?_eq_some.2 hkey)
    rw [hentry]
    exact .some henc'

end CCryptoKeyStore

/-! ## Runs -/

/-- What may be called once the store is encrypted. -/
inductive KeyStoreCall
  | lock
  | unlock (vMasterKeyIn : List UInt8)
  | addKey (key : CKey)

/-- What a call returns, and leaves. -/
def KeyStoreCall.run (s : CCryptoKeyStore) : KeyStoreCall → Bool × CCryptoKeyStore
  | .lock => s.lock
  | .unlock vMasterKeyIn => s.unlock vMasterKeyIn
  | .addKey key => s.addKey key

/-- What it means for the keys: one that was added is there. -/
def KeyStoreCall.keep (plain : KeyMap) (fAdded : Bool) : KeyStoreCall → KeyMap
  | .addKey key => if fAdded then plain.addKey key else plain
  | _ => plain

/-- **A call that keeps to the master key**: `Unlock` is given it, or
refuses what it is given, or there are no keys yet; and no key is added
while another master key is in use. -/
def KeyStoreCall.KeepsTo (mk : List UInt8) (s : CCryptoKeyStore) : KeyStoreCall → Prop
  | .lock => True
  | .unlock k => k = mk ∨ s.mapCryptedKeys = ∅ ∨ (s.unlock k).1 = false
  | .addKey _ => s.isLocked = true ∨ s.vMasterKey = mk

/-- **A store that was encrypted**, and calls to it that meet `ok`; and the
keys an unencrypted store would hold. -/
inductive EncryptedRun (mk : List UInt8) (ok : CCryptoKeyStore → KeyStoreCall → Prop) :
    CCryptoKeyStore → KeyMap → Prop
  /-- `EncryptKeys` returned true -/
  | encrypt {s s' : CCryptoKeyStore} (h : CCryptoKeyStore.Unencrypted s)
      (henc : s.encryptKeys mk = (true, s')) : EncryptedRun mk ok s' s.mapKeys
  /-- one more call -/
  | call {s : CCryptoKeyStore} {plain : KeyMap} (hrun : EncryptedRun mk ok s plain)
      (c : KeyStoreCall) (hok : ok s c) :
      EncryptedRun mk ok (c.run s).2 (c.keep plain (c.run s).1)

/-- **What encryption leaves as it was**, and what it does not. -/
structure AnswersAlike (mk : List UInt8) (s : CCryptoKeyStore) (plain : KeyMap) : Prop where
  haveKey : ∀ address, s.haveKey address = plain.haveKey address
  getPubKey : ∀ address, s.getPubKey address = plain.getPubKey address
  getKeys : s.getKeys = plain.getKeys
  getKey : s.isLocked = false → ∀ address, s.getKey address false = plain.getKey address
  getKey_locked : s.isLocked = true → ∀ address fCompressedOut,
    s.getKey address fCompressedOut = none
  unlock : (s.unlock mk).1 = true
  mapKeys : s.fUseCrypto = true ∧ s.mapKeys = ∅

theorem CCryptoKeyStore.Mirrors.answersAlike (h : s.Mirrors mk plain) : AnswersAlike mk s plain where
  haveKey := h.haveKey
  getPubKey := h.getPubKey
  getKeys := h.getKeys
  getKey := h.getKey
  getKey_locked := h.getKey_of_isLocked
  unlock := h.unlock_self
  mapKeys := ⟨h.fUseCrypto, h.mapKeys⟩

theorem EncryptedRun.mirrors {ok : CCryptoKeyStore → KeyStoreCall → Prop}
    (hok : ∀ s c, ok s c → c.KeepsTo mk s) (h : EncryptedRun mk ok s plain) : s.Mirrors mk plain := by
  induction h with
  | encrypt h henc => exact h.mirrors henc
  | call hrun c hcall ih =>
    have hkeeps := hok _ _ hcall
    cases c with
    | lock => exact ih.lock
    | unlock k => exact ih.unlock hkeeps
    | addKey key => exact ih.addKey hkeeps

/-- **An encrypted store answers as an unencrypted one would**, all through
a run whose calls keep to the master key. -/
theorem answersAlike_of_keepsTo (h : EncryptedRun mk (fun s c => c.KeepsTo mk s) s plain) :
    AnswersAlike mk s plain :=
  (h.mirrors fun _ _ hc => hc).answersAlike

/-! ## A store without keys -/

namespace NoKeys

omit P K

/-- As `Platform.toy`, with a key's hash its first byte. -/
@[reducible] def platform : Platform :=
  { Platform.toy with hash160 := fun b => BitVec.ofNat 160 (b.getD 1 0).toNat }

/-- A cipher that puts its key in front. -/
@[reducible] def crypto : KeyCrypto where
  pubKey secret fCompressed :=
    if fCompressed then 2 :: secret.1 else 4 :: secret.1 ++ List.replicate 32 0
  encrypt key _ plain := some (key ++ plain)
  decrypt key _ cipher := if key.isPrefixOf cipher then some (cipher.drop key.length) else none
  length_pubKey secret fCompressed := by
    have hlen := secret.2
    cases fCompressed <;> simp [hlen]
  decrypt_encrypt key _ plain cipher h := by
    obtain rfl := Option.some.inj h
    have hprefix : key.isPrefixOf (key ++ plain) = true := by simp
    rw [if_pos hprefix, List.drop_left]

def masterKey : List UInt8 := List.replicate 32 7

def otherKey : List UInt8 := List.replicate 32 8

/-- The key of a byte. -/
def keyOf (b : UInt8) : CKey := ⟨⟨List.replicate 32 b, List.length_replicate⟩, true⟩

/-- One key, encrypted. -/
def oneKey : CCryptoKeyStore :=
  ((CCryptoKeyStore.new.addKey (P := platform) (K := crypto) (keyOf 1)).2.encryptKeys (P := platform)
    (K := crypto) masterKey).2

/-- No key, encrypted, and another master key let in. -/
def misled : CCryptoKeyStore :=
  ((CCryptoKeyStore.new.encryptKeys (P := platform) (K := crypto) masterKey).2.unlock
    (P := platform) (K := crypto) otherKey).2

/-- A key that is added to an unlocked store is one of its keys. -/
theorem answersAlike_oneKey :
    let s := (oneKey.unlock (P := platform) (K := crypto) masterKey).2
    AnswersAlike (P := platform) (K := crypto) masterKey
      (s.addKey (P := platform) (K := crypto) (keyOf 2)).2
      (((∅ : KeyMap).addKey (P := platform) (K := crypto) (keyOf 1)).addKey (P := platform)
        (K := crypto) (keyOf 2)) := by
  let := platform
  let := crypto
  intro s
  have h₀ : EncryptedRun masterKey (fun s c => c.KeepsTo masterKey s) oneKey
      (CCryptoKeyStore.new.addKey (keyOf 1)).2.mapKeys :=
    .encrypt (.addKey .new _) (Prod.ext (by decide) rfl)
  have h₁ := h₀.call (.unlock masterKey) (.inl rfl)
  have h₂ := h₁.call (.addKey (keyOf 2)) (.inr (by decide))
  have hadded : (KeyStoreCall.run (KeyStoreCall.run oneKey (.unlock masterKey)).2
      (.addKey (keyOf 2))).1 = true := by decide
  have hall := answersAlike_of_keepsTo h₂
  rw [KeyStoreCall.keep, if_pos hadded] at hall
  exact hall

/-- **The right master key is refused**, once a key was added under another
one. -/
theorem not_answersAlike :
    ¬ ∀ (_ : Platform) (_ : KeyCrypto) (mk : List UInt8) (s : CCryptoKeyStore) (plain : KeyMap),
      EncryptedRun mk (fun _ _ => True) s plain → AnswersAlike mk s plain := by
  intro h
  let := platform
  let := crypto
  have h₀ : EncryptedRun masterKey (fun _ _ => True)
      (CCryptoKeyStore.new.encryptKeys masterKey).2 CCryptoKeyStore.new.mapKeys :=
    .encrypt .new (Prod.ext (by decide) rfl)
  have h₂ := (h₀.call (.unlock otherKey) trivial).call (.addKey (keyOf 1)) trivial
  have hunlock := (h platform crypto masterKey _ _ h₂).unlock
  have hrefused : (((KeyStoreCall.addKey (keyOf 1)).run misled).2.unlock masterKey).1 = false := by
    decide
  exact absurd (hrefused.symm.trans hunlock) (by decide)

end NoKeys

end CryptoBullion
