import CryptoBullion.Model.Key
/-!
# The two copies of a key's format

A key object is in step where its member and the library's key say the same
of how the public key is written. Every operation keeps it in step but
three: a copy is left with whatever was in its memory, an assigned object
keeps the member it had, and a key that is read in, or fails to be, over a
compressed one takes the member over. Where none of these meets another
format, every key that is set is told by `IsCompressed` for what it is.
-/

namespace CryptoBullion

namespace Key

variable [L : OpenSSL] {k b : CKey} {keys : List CKey} {vchPubKey vchSecret : List UInt8}

/-! ## What the library documents -/

/-- A public key that is a point of the curve's plane. -/
def Finite (pkey : L.EC_KEY) : Prop := ∃ p, L.getPublicKey pkey = some p ∧ L.isAtInfinity p = false

/-- **What is relied on.** A copy has the key and its conversion form.
Writing a public key depends on the two, and takes 33 bytes for a finite
point in the compressed form and in no other case; reading one takes the
form of what is read. Nothing else touches the form. -/
structure OpenSSL.Documented (L : OpenSSL) : Prop where
  form_new : L.getConvForm L.newByCurveName ≠ pointConversionCompressed
  form_set : ∀ pkey form, L.getConvForm (L.setConvForm pkey form) = form
  public_set : ∀ pkey form, L.getPublicKey (L.setConvForm pkey form) = L.getPublicKey pkey
  form_setPublic : ∀ pkey p, L.getConvForm (L.setPublicKey pkey p) = L.getConvForm pkey
  public_setPublic : ∀ pkey p, L.getPublicKey (L.setPublicKey pkey p) = some p
  form_setPrivate : ∀ pkey n, L.getConvForm (L.setPrivateKey pkey n) = L.getConvForm pkey
  form_generate : ∀ pkey random pkey', L.generateKey pkey random = some pkey' →
    L.getConvForm pkey' = L.getConvForm pkey
  finite_generate : ∀ pkey random pkey', L.generateKey pkey random = some pkey' → Finite pkey'
  form_dup : ∀ pkey, L.getConvForm (L.dup pkey) = L.getConvForm pkey
  public_dup : ∀ pkey, L.getPublicKey (L.dup pkey) = L.getPublicKey pkey
  private_dup : ∀ pkey, L.getPrivateKey (L.dup pkey) = L.getPrivateKey pkey
  form_copy : ∀ pkey src, L.getConvForm (L.copy pkey src) = L.getConvForm src
  public_copy : ∀ pkey src, L.getPublicKey (L.copy pkey src) = L.getPublicKey src
  private_copy : ∀ pkey src, L.getPrivateKey (L.copy pkey src) = L.getPrivateKey src
  i2o_congr : ∀ pkey pkey', L.getConvForm pkey = L.getConvForm pkey' →
    L.getPublicKey pkey = L.getPublicKey pkey' → L.i2o pkey = L.i2o pkey'
  i2o_compressed : ∀ pkey, (∃ vch, L.i2o pkey = some vch ∧ vch.length = 33) ↔
    L.getConvForm pkey = pointConversionCompressed ∧ Finite pkey
  form_o2i : ∀ pkey vch pkey', L.o2i pkey vch = some pkey' →
    (L.getConvForm pkey' = pointConversionCompressed ↔ vch.length = 33)
  finite_o2i : ∀ pkey vch pkey', L.o2i pkey vch = some pkey' → vch.length = 33 → Finite pkey'

/-! ## One object -/

namespace CKey

/-- **A key never forgets its format**: where it is set, `IsCompressed`
says what `GetPubKey` yields. -/
def Remembers (k : CKey) : Prop :=
  k.fSet = true → (k.isCompressed = true ↔ ∃ vch, k.getPubKey = .ok vch ∧ vch.length = 33)

/-- The same public key, secret and flag. -/
def SameKey (k b : CKey) : Prop :=
  k.fSet = b.fSet ∧ k.getPubKey = b.getPubKey ∧ k.getSecret = b.getSecret ∧
    k.isCompressed = b.isCompressed

/-- The member and the library's key are of one format, and a compressed
key that is set has a public key. -/
structure InStep (k : CKey) : Prop where
  form : k.fCompressedPubKey = true ↔ L.getConvForm k.pkey = pointConversionCompressed
  finite : k.fSet = true → k.fCompressedPubKey = true → Finite k.pkey

theorem getPubKey_eq_ok {vch : List UInt8} : k.getPubKey = .ok vch ↔ L.i2o k.pkey = some vch := by
  unfold getPubKey
  rcases L.i2o k.pkey with _ | vch' <;> simp

/-- A key in step remembers its format. -/
theorem InStep.remembers (hdoc : L.Documented) (h : k.InStep) : k.Remembers := by
  intro hset
  unfold isCompressed
  simp only [getPubKey_eq_ok]
  rw [hdoc.i2o_compressed]
  exact ⟨fun hc => ⟨h.form.1 hc, h.finite hset hc⟩, fun hc => h.form.2 hc.1⟩

theorem inStep_reset (hdoc : L.Documented) : (reset : CKey).InStep :=
  ⟨iff_of_false Bool.false_ne_true hdoc.form_new, fun h => absurd h Bool.false_ne_true⟩

/-- Setting the compressed form brings a key in step that has a public
key. -/
theorem inStep_setCompressedPubKey (hdoc : L.Documented) (h : k.fSet = true → Finite k.pkey) :
    k.setCompressedPubKey.InStep := by
  refine ⟨iff_of_true rfl (hdoc.form_set _ _), fun hset _ => ?_⟩
  obtain ⟨p, hp, hfinite⟩ := h hset
  exact ⟨p, (hdoc.public_set _ _).trans hp, hfinite⟩

/-- A new key is in step. -/
theorem InStep.makeNewKey (hdoc : L.Documented) (h : k.InStep) (random : ℕ) (fCompressed : Bool) :
    (k.makeNewKey random fCompressed).1.InStep := by
  unfold CKey.makeNewKey
  rcases hnew : L.generateKey k.pkey random with _ | pkey
  · exact h
  · have hform := hdoc.form_generate _ _ _ hnew
    have hfinite := hdoc.finite_generate _ _ _ hnew
    rcases fCompressed with _ | _
    · exact ⟨h.form.trans (by rw [← hform]; rfl), fun _ _ => hfinite⟩
    · exact (inStep_setCompressedPubKey (k := { k with pkey := pkey, fSet := true }) hdoc
        fun _ => hfinite)

/-- What is copied, but for the member. -/
theorem getPubKey_congr (hdoc : L.Documented)
    (hform : L.getConvForm k.pkey = L.getConvForm b.pkey)
    (hpublic : L.getPublicKey k.pkey = L.getPublicKey b.pkey) : k.getPubKey = b.getPubKey := by
  unfold getPubKey
  rw [hdoc.i2o_congr _ _ hform hpublic]

theorem getSecret_congr (hprivate : L.getPrivateKey k.pkey = L.getPrivateKey b.pkey)
    (hflag : k.fCompressedPubKey = b.fCompressedPubKey) : k.getSecret = b.getSecret := by
  unfold getSecret
  rw [hprivate, hflag]

/-- An object with the library's key of another is in step where it has
that one's member. -/
theorem InStep.congr (h : b.InStep) (hform : L.getConvForm k.pkey = L.getConvForm b.pkey)
    (hpublic : L.getPublicKey k.pkey = L.getPublicKey b.pkey) (hset : k.fSet = b.fSet)
    (hflag : k.fCompressedPubKey = b.fCompressedPubKey) : k.InStep := by
  refine ⟨by rw [hflag, hform]; exact h.form, fun hk hc => ?_⟩
  rw [hset] at hk
  rw [hflag] at hc
  obtain ⟨p, hp, hfinite⟩ := h.finite hk hc
  exact ⟨p, hpublic.trans hp, hfinite⟩

/-- **A copy** is in step, and the same key, where its memory held the flag
of its source. -/
theorem InStep.copyOf (hdoc : L.Documented) (h : b.InStep) :
    (b.copyOf b.fCompressedPubKey).InStep :=
  h.congr (hdoc.form_dup _) (hdoc.public_dup _) rfl rfl

theorem sameKey_copyOf (hdoc : L.Documented) {memory : Bool} :
    SameKey (b.copyOf memory) b ↔ memory = b.fCompressedPubKey := by
  refine ⟨fun h => h.2.2.2, fun h => ⟨rfl, getPubKey_congr hdoc (hdoc.form_dup _) (hdoc.public_dup _),
    getSecret_congr (hdoc.private_dup _) h, h⟩⟩

/-- **An assigned key** where it had the flag of its source. -/
theorem InStep.assign (hdoc : L.Documented) (h : b.InStep)
    (hflag : k.fCompressedPubKey = b.fCompressedPubKey) : (k.assign b).InStep :=
  h.congr (hdoc.form_copy _ _) (hdoc.public_copy _ _) rfl hflag

theorem sameKey_assign (hdoc : L.Documented) :
    SameKey (k.assign b) b ↔ k.fCompressedPubKey = b.fCompressedPubKey := by
  refine ⟨fun h => h.2.2.2, fun h => ⟨rfl, getPubKey_congr hdoc (hdoc.form_copy _ _)
    (hdoc.public_copy _ _), getSecret_congr (hdoc.private_copy _ _) h, h⟩⟩

/-- A secret that has a public key: neither zero nor a multiple of the
order. -/
def IsSecret (vchSecret : List UInt8) : Prop :=
  vchSecret.length = 32 ∧
    ∃ p, L.pointMul (ofLeBytes vchSecret.reverse) = some p ∧ L.isAtInfinity p = false

/-- What `SetSecret` throws for -/
def Refused (vchSecret : List UInt8) : Prop :=
  vchSecret.length ≠ 32 ∨ L.pointMul (ofLeBytes vchSecret.reverse) = none

/-- **A secret that is set** leaves the key in step, where it is one or
neither format is the compressed one. -/
theorem InStep.setSecret (hdoc : L.Documented) {fCompressed : Bool}
    (hsecret : IsSecret vchSecret ∨
      k.fCompressedPubKey = false ∧ (fCompressed = false ∨ Refused vchSecret)) :
    (k.setSecret vchSecret fCompressed).1.InStep := by
  -- a key that is thrown away is not compressed, so the member may not be
  have hthrown : Refused vchSecret → InStep { k with pkey := L.newByCurveName } := by
    intro hrefused
    have hflag : k.fCompressedPubKey = false := by
      rcases hsecret with ⟨hlen, p, hp, -⟩ | ⟨hflag, -⟩
      · rcases hrefused with hno | hno
        · exact absurd hlen hno
        · rw [hp] at hno
          exact absurd hno (by simp)
      · exact hflag
    refine ⟨iff_of_false ?_ hdoc.form_new, fun _ hc => ?_⟩
    · show ¬ k.fCompressedPubKey = true
      rw [hflag]
      exact Bool.false_ne_true
    · exact absurd (hflag ▸ hc) Bool.false_ne_true
  unfold CKey.setSecret
  dsimp only
  by_cases hlen : vchSecret.length ≠ 32
  · rw [if_pos hlen]
    exact hthrown (.inl hlen)
  · rw [if_neg hlen]
    unfold regenerateKey
    rcases hmul : L.pointMul (ofLeBytes vchSecret.reverse) with _ | p
    · exact hthrown (.inr hmul)
    · dsimp only [Option.map]
      split_ifs with hform
      · refine inStep_setCompressedPubKey hdoc fun _ => ⟨p, hdoc.public_setPublic _ _, ?_⟩
        rcases hsecret with ⟨-, q, hq, hfinite⟩ | ⟨hflag, hrest⟩
        · rw [hmul] at hq
          rwa [Option.some.inj hq]
        · rcases hrest with hno | hno | hno
          · rw [hflag, hno] at hform
            exact absurd hform Bool.false_ne_true
          · exact absurd hno hlen
          · rw [hmul] at hno
            exact absurd hno (by simp)
      · have hflag : ¬ k.fCompressedPubKey = true := fun hc => hform (by simp [hc])
        refine ⟨iff_of_false hflag ?_, fun _ hc => absurd hc hflag⟩
        dsimp only
        rw [hdoc.form_setPublic, hdoc.form_setPrivate]
        exact hdoc.form_new

/-- **A public key that is read in** leaves the key in step, where it is
compressed, or the key was not, or it cannot be read. -/
theorem InStep.setPubKey (hdoc : L.Documented)
    (hpub : vchPubKey.length = 33 ∨ k.fCompressedPubKey = false ∨ L.o2i k.pkey vchPubKey = none) :
    (k.setPubKey vchPubKey).1.InStep := by
  unfold CKey.setPubKey
  rcases hread : L.o2i k.pkey vchPubKey with _ | pkey
  · exact inStep_reset hdoc
  · dsimp only
    split_ifs with hlen
    · exact inStep_setCompressedPubKey hdoc fun _ => hdoc.finite_o2i _ _ _ hread hlen
    · have hflag : ¬ k.fCompressedPubKey = true := by
        rcases hpub with h | h | h
        · exact absurd h hlen
        · rw [h]
          exact Bool.false_ne_true
        · rw [hread] at h
          exact absurd h (by simp)
      exact ⟨iff_of_false hflag fun h => hlen ((hdoc.form_o2i _ _ _ hread).1 h),
        fun _ hc => absurd hc hflag⟩

end CKey

/-! ## All of them -/

/-- The condition on a step: no object takes over, or keeps, a member of
another format than the key it gets. -/
def KeyOp.KeepsFormat : KeyOp → List CKey → Prop
  | copyConstruct b memory, keys => ∀ k' ∈ keys[b]?, memory = k'.fCompressedPubKey
  | assign a b, keys => ∀ k ∈ keys[a]?, ∀ k' ∈ keys[b]?, k.fCompressedPubKey = k'.fCompressedPubKey
  | setSecret a vchSecret fCompressed, keys => ∀ k ∈ keys[a]?, CKey.IsSecret vchSecret ∨
      k.fCompressedPubKey = false ∧ (fCompressed = false ∨ CKey.Refused vchSecret)
  | setPubKey a vchPubKey, keys => ∀ k ∈ keys[a]?, vchPubKey.length = 33 ∨
      k.fCompressedPubKey = false ∨ L.o2i k.pkey vchPubKey = none
  | setCompressedPubKey a, keys => ∀ k ∈ keys[a]?, k.fSet = true → Finite k.pkey
  | _, _ => True

/-- What a program's key objects may be, where every step meets the
condition. -/
inductive KeepsFormat : List CKey → Prop
  | init : KeepsFormat []
  | step {keys : List CKey} (op : KeyOp) (h : KeepsFormat keys) (hop : op.KeepsFormat keys) :
      KeepsFormat (op.step keys)

/-- Changing one object. -/
theorem forall_mem_modify {f : CKey → CKey} {a : ℕ} (h : ∀ k ∈ keys, k.InStep)
    (hf : ∀ k ∈ keys[a]?, k.InStep → (f k).InStep) : ∀ k ∈ keys.modify a f, k.InStep := by
  intro k hk
  obtain ⟨i, hi, rfl⟩ := List.getElem_of_mem hk
  rw [List.getElem_modify]
  have hi' : i < keys.length := by rwa [List.length_modify] at hi
  have hin := h _ (List.getElem_mem hi')
  split_ifs with ha
  · subst ha
    exact hf _ (List.getElem?_eq_getElem hi') hin
  · exact hin

/-- **One step** keeps all objects in step. -/
theorem inStep_step (hdoc : L.Documented) {op : KeyOp} (h : ∀ k ∈ keys, k.InStep)
    (hop : op.KeepsFormat keys) : ∀ k ∈ op.step keys, k.InStep := by
  cases op with
  | construct =>
    intro k hk
    rcases List.mem_append.1 hk with hk | hk
    · exact h k hk
    · rw [List.mem_singleton.1 hk]
      exact CKey.inStep_reset hdoc
  | copyConstruct b memory =>
    intro k hk
    rcases List.mem_append.1 hk with hk | hk
    · exact h k hk
    · obtain ⟨k', hk', rfl⟩ := Option.map_eq_some_iff.1 (Option.mem_toList.1 hk)
      obtain rfl := hop k' hk'
      exact (h k' (List.mem_of_getElem? hk')).copyOf hdoc
  | assign a b =>
    refine forall_mem_modify h fun k hk hin => ?_
    rcases hb : keys[b]? with _ | k'
    · exact hin
    · exact (h k' (List.mem_of_getElem? hb)).assign hdoc (hop k hk k' hb)
  | makeNewKey a random fCompressed =>
    exact forall_mem_modify h fun k _ hin => hin.makeNewKey hdoc random fCompressed
  | setSecret a vchSecret fCompressed =>
    exact forall_mem_modify h fun k hk _ => CKey.InStep.setSecret hdoc (hop k hk)
  | setPubKey a vchPubKey =>
    exact forall_mem_modify h fun k hk _ => CKey.InStep.setPubKey hdoc (hop k hk)
  | setCompressedPubKey a =>
    exact forall_mem_modify h fun k hk _ => CKey.inStep_setCompressedPubKey hdoc (hop k hk)
  | reset a => exact forall_mem_modify h fun _ _ _ => CKey.inStep_reset hdoc

/-- **And so does a run.** -/
theorem KeepsFormat.inStep (hdoc : L.Documented) (h : KeepsFormat keys) : ∀ k ∈ keys, k.InStep := by
  induction h with
  | init => simp
  | step op _ hop ih => exact inStep_step hdoc ih hop

/-- **Where no step brings two formats together**, every key remembers its
format, in every state of a run. A copy or an assigned key is its source in
all three, exactly where it had the flag of its source already. -/
theorem keyFormat_kept (hdoc : L.Documented) (keys : List CKey) (hrun : KeepsFormat keys) :
    (∀ k ∈ keys, k.Remembers) ∧
    ∀ b ∈ keys, (∀ memory, (b.copyOf memory).SameKey b ↔ memory = b.fCompressedPubKey) ∧
      ∀ k ∈ keys, (k.assign b).SameKey b ↔ k.fCompressedPubKey = b.fCompressedPubKey :=
  ⟨fun k hk => (hrun.inStep hdoc k hk).remembers hdoc,
    fun b _ => ⟨fun _ => CKey.sameKey_copyOf hdoc, fun _ _ => CKey.sameKey_assign hdoc⟩⟩

/-! ## A small curve -/

namespace SmallCurve

/-- A key: the secret, the point it is multiplied to, and the form. -/
structure SmallKey where
  priv : Option ℕ
  pub : Option ℕ
  form : ℕ

/-- A point written out: infinity is a single byte. -/
def SmallKey.write (pkey : SmallKey) : Option (List UInt8) :=
  match pkey.pub with
  | none => none
  | some 0 => some [0]
  | some (n + 1) => some (if pkey.form = pointConversionCompressed then 2 :: leBytes 32 n
      else 4 :: leBytes 64 n)

/-- A point read in. -/
def SmallKey.read (pkey : SmallKey) (vch : List UInt8) : Option SmallKey :=
  if vch.length = 33 then
    some { pkey with pub := some (ofLeBytes vch.tail + 1), form := pointConversionCompressed }
  else if vch.length = 65 then
    some { pkey with pub := some (ofLeBytes vch.tail + 1), form := 4 }
  else none

/-- A library over points that are numbers, zero at infinity. -/
@[reducible] def openSSL : OpenSSL where
  EC_KEY := SmallKey
  EC_POINT := ℕ
  newByCurveName := ⟨none, none, 4⟩
  setConvForm pkey form := { pkey with form := form }
  getConvForm pkey := pkey.form
  getPublicKey pkey := pkey.pub
  setPublicKey pkey p := { pkey with pub := some p }
  getPrivateKey pkey := pkey.priv
  setPrivateKey pkey n := { pkey with priv := some n }
  pointMul n := some n
  isAtInfinity p := p = 0
  generateKey pkey random := some { pkey with priv := some (random + 1), pub := some (random + 1) }
  dup pkey := pkey
  copy _ src := src
  i2o := SmallKey.write
  o2i := SmallKey.read

omit L in
/-- It does what is documented. -/
theorem documented : openSSL.Documented where
  form_new := by decide
  form_set _ _ := rfl
  public_set _ _ := rfl
  form_setPublic _ _ := rfl
  public_setPublic _ _ := rfl
  form_setPrivate _ _ := rfl
  form_generate := by
    intro pkey random pkey' h
    rw [← Option.some.inj h]
    rfl
  finite_generate := by
    intro pkey random pkey' h
    rw [← Option.some.inj h]
    exact ⟨random + 1, rfl, rfl⟩
  form_dup _ := rfl
  public_dup _ := rfl
  private_dup _ := rfl
  form_copy _ _ := rfl
  public_copy _ _ := rfl
  private_copy _ _ := rfl
  i2o_congr := by
    intro pkey pkey' hform hpub
    show pkey.write = pkey'.write
    unfold SmallKey.write
    rw [show pkey.pub = pkey'.pub from hpub, show pkey.form = pkey'.form from hform]
  i2o_compressed := by
    intro pkey
    unfold Finite
    show (∃ vch, pkey.write = some vch ∧ vch.length = 33) ↔
      pkey.form = pointConversionCompressed ∧ ∃ p, pkey.pub = some p ∧ decide (p = 0) = false
    unfold SmallKey.write
    rcases pkey.pub with _ | _ | n
    · simp
    · simp
    · by_cases hform : pkey.form = pointConversionCompressed <;> simp [hform]
  form_o2i := by
    intro pkey vch pkey' h
    unfold openSSL SmallKey.read at h
    dsimp only at h
    split_ifs at h with h33 h65
    · refine iff_of_true ?_ h33
      rw [← Option.some.inj h]
      rfl
    · refine iff_of_false ?_ h33
      rw [← Option.some.inj h]
      show ¬ (4 = pointConversionCompressed)
      decide
  finite_o2i := by
    intro pkey vch pkey' h h33
    unfold openSSL SmallKey.read at h
    dsimp only at h
    rw [if_pos h33] at h
    rw [← Option.some.inj h]
    exact ⟨ofLeBytes vch.tail + 1, rfl, rfl⟩

end SmallCurve

omit L in
/-- A compressed key assigned to another that is compressed. -/
theorem keyFormat_kept_assigned :
    letI := SmallCurve.openSSL
    List.Forall CKey.Remembers ([KeyOp.construct, .construct, .makeNewKey 0 5 true, .makeNewKey 1 6 true,
      .assign 1 0].foldl (fun keys op => op.step keys) ([] : List CKey)) := by
  let := SmallCurve.openSSL
  have hrun : KeepsFormat ([KeyOp.construct, .construct, .makeNewKey 0 5 true, .makeNewKey 1 6 true,
      .assign 1 0].foldl (fun keys op => op.step keys) ([] : List CKey)) := by
    refine .step (.assign 1 0) (.step (.makeNewKey 1 6 true) (.step (.makeNewKey 0 5 true)
      (.step .construct (.step .construct .init trivial) trivial) trivial) trivial) ?_
    intro k hk k' hk'
    rw [← Option.some.inj hk, ← Option.some.inj hk']
    rfl
  exact List.forall_iff_forall_mem.2 (keyFormat_kept SmallCurve.documented _ hrun).1

omit L in
/-- **A key forgets its format** where a compressed key is assigned to an
object that was not. -/
theorem keyFormat_forgotten :
    ¬ ∀ L : OpenSSL, L.Documented → ∀ (ops : List KeyOp) (k : CKey),
      k ∈ ops.foldl (fun keys op => op.step keys) ([] : List CKey) → k.Remembers := by
  intro h
  let := SmallCurve.openSSL
  have hforgets : ¬ CKey.Remembers (⟨⟨some 6, some 6, 2⟩, true, false⟩ : CKey) := fun hk =>
    Bool.false_ne_true ((hk rfl).2 ⟨2 :: leBytes 32 5, rfl, rfl⟩)
  exact hforgets (h SmallCurve.openSSL SmallCurve.documented
    [.construct, .construct, .makeNewKey 0 5 true, .assign 1 0] _
    (List.mem_cons_of_mem _ List.mem_cons_self))

end Key

end CryptoBullion
