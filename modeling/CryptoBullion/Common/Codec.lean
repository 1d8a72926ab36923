import Mathlib
/-!
# Decoders that accept more than one encoding

A decoder takes a value off the front of a buffer and hands back what is
left. `Codec` relates it to an encoder that writes the shortest of the
encodings it accepts, and no other of that length. This is weaker than a
canonical format and still says which prefixes of a buffer decode: what an
encoding was cut short of cannot be read (`Codec.fails_of_lt`), and a
buffer cut to its canonical length decodes exactly where it was canonical
(`Codec.take_iff`).
-/

namespace CryptoBullion

/-- Takes a value off the front of a buffer. -/
abbrev Decoder (ε β α : Type) := StateT (List β) (Except ε) α

variable {ε β α γ : Type}

namespace Decoder

/-- The next `n` elements as they are; `e` where there are fewer. -/
def takeN (e : ε) (n : ℕ) : Decoder ε β (List β) := fun p =>
  if p.length < n then .error e else .ok (p.take n, p.drop n)

/-- `n` values, one after the other. -/
def many (d : Decoder ε β α) : ℕ → Decoder ε β (List α)
  | 0 => pure []
  | n + 1 => do
    let a ← d
    let as ← many d n
    return a :: as

/-- `nSize` values from the `i`th on, `blk` at a time: `get` reads as many as
it is told. -/
def pieces (blk : ℕ) (hblk : 0 < blk) (get : ℕ → Decoder ε β (List α)) (nSize i : ℕ) :
    Decoder ε β (List α) :=
  if i < nSize then do
    let v ← get (min (nSize - i) blk)
    let rest ← pieces blk hblk get nSize (i + min (nSize - i) blk)
    return v ++ rest
  else return []
termination_by nSize - i
decreasing_by omega

/-- A value, or `e` where it does not pass. -/
def check (c : α → Bool) (e : ε) (d : Decoder ε β α) : Decoder ε β α := do
  let a ← d
  if c a then return a else throw e

/-- Two values in a row. -/
def pair (d : Decoder ε β α) (d' : Decoder ε β γ) : Decoder ε β (α × γ) := do
  let a ← d
  let c ← d'
  return (a, c)

variable {d : Decoder ε β α} {f : α → Decoder ε β γ} {p r : List β} {a : α} {c : γ} {e : ε}

theorem pure_apply : (pure a : Decoder ε β α) p = .ok (a, p) := rfl

theorem throw_apply : (throw e : Decoder ε β α) p = .error e := rfl

theorem bind_apply : (d >>= f) p = (d p >>= fun x => f x.1 x.2) := rfl

theorem bind_of_ok (h : d p = .ok (a, r)) : (d >>= f) p = f a r := by
  rw [bind_apply, h]
  rfl

theorem bind_of_error (h : d p = .error e) : (d >>= f) p = .error e := by
  rw [bind_apply, h]
  rfl

/-- **A sequence that decodes** is two decoders that do. -/
theorem bind_eq_ok : (d >>= f) p = .ok (c, r) ↔ ∃ a q, d p = .ok (a, q) ∧ f a q = .ok (c, r) := by
  rcases h : d p with e | ⟨a, q⟩
  · rw [bind_of_error h]
    simp
  · rw [bind_of_ok h]
    simp

/-- The next `n` elements are in front of what is left. -/
theorem takeN_eq_ok {n : ℕ} {v : List β} :
    takeN e n p = .ok (v, r) ↔ v.length = n ∧ p = v ++ r := by
  unfold takeN
  constructor
  · intro h
    split at h
    · simp at h
    · obtain ⟨rfl, rfl⟩ : p.take n = v ∧ p.drop n = r := by simpa using h
      rw [List.length_take]
      exact ⟨by omega, (List.take_append_drop n p).symm⟩
  · rintro ⟨rfl, rfl⟩
    rw [if_neg (by rw [List.length_append]; omega), List.take_left, List.drop_left]

/-- What follows may count on the number of elements. -/
theorem takeN_bind_congr {n : ℕ} {f g : List β → Decoder ε β γ}
    (h : ∀ v : List β, v.length = n → f v = g v) : takeN e n >>= f = takeN e n >>= g := by
  funext p
  rcases hp : takeN (β := β) e n p with e' | ⟨v, q⟩
  · rw [bind_of_error hp, bind_of_error hp]
  · rw [bind_of_ok hp, bind_of_ok hp, h v (takeN_eq_ok.1 hp).1]

/-! ## Reading in pieces -/

theorem many_add (m n : ℕ) :
    d.many (m + n) = (do let v ← d.many m; let w ← d.many n; return v ++ w) := by
  induction m with
  | zero => simp [many]
  | succ m ih =>
    rw [Nat.succ_add]
    simp [many, ih]

theorem takeN_add (m n : ℕ) : takeN (β := β) e (m + n) =
    (do let v ← takeN e m; let w ← takeN e n; return v ++ w) := by
  funext p
  rcases h : takeN (β := β) e m p with e' | ⟨v, q⟩
  · -- what is missing of the first piece is missing of the whole
    rw [bind_of_error h]
    unfold takeN at h ⊢
    split at h
    · rw [if_pos (by omega)]
      exact h
    · simp at h
  · obtain ⟨hv, rfl⟩ := takeN_eq_ok.1 h
    rw [bind_of_ok h]
    by_cases hq : q.length < n
    · have hrest : takeN (β := β) e n q = .error e := if_pos hq
      rw [bind_of_error hrest]
      exact if_pos (by rw [List.length_append]; omega)
    · have hrest : takeN (β := β) e n q = .ok (q.take n, q.drop n) := if_neg hq
      rw [bind_of_ok hrest]
      refine takeN_eq_ok.2 ⟨?_, ?_⟩
      · rw [List.length_append, List.length_take]
        omega
      · rw [List.append_assoc, List.take_append_drop]

/-- **Reading in pieces is reading at once**, where two pieces in a row are
one of both lengths. -/
theorem pieces_eq {blk : ℕ} (hblk : 0 < blk) {get : ℕ → Decoder ε β (List α)}
    (hzero : get 0 = pure [])
    (hadd : ∀ m n, get (m + n) = (do let v ← get m; let w ← get n; return v ++ w))
    (nSize i : ℕ) : pieces blk hblk get nSize i = get (nSize - i) := by
  unfold pieces
  split
  · rw [pieces_eq hblk hzero hadd nSize, ← hadd]
    congr 1
    omega
  · rw [show nSize - i = 0 by omega, hzero]
termination_by nSize - i
decreasing_by omega

end Decoder

/-- `enc` writes the shortest encodings `d` accepts, of the values in `ok`,
and `d` reads nothing else and no further than it must. -/
structure Codec (d : Decoder ε β α) (enc : α → List β) (ok : α → Prop) : Prop where
  /-- a value that was read was written there, in a form no shorter than
  the encoder's, and whatever follows it -/
  reads : ∀ {p a r}, d p = .ok (a, r) → ∃ c, p = c ++ r ∧ ok a ∧
    (enc a).length ≤ c.length ∧ (c.length = (enc a).length → c = enc a) ∧
    ∀ r', d (c ++ r') = .ok (a, r')
  /-- what the encoder writes is read back -/
  writes : ∀ {a r}, ok a → d (enc a ++ r) = .ok (a, r)

namespace Codec

variable {d : Decoder ε β α} {d' : Decoder ε β γ} {enc : α → List β} {enc' : γ → List β}
variable {ok ok' : α → Prop} {okc : γ → Prop} {p r : List β} {a : α} {e : ε}

/-! ## Building codecs -/

/-- **One encoding for each value.** -/
theorem of_exact (h : ∀ p a r, d p = .ok (a, r) ↔ ok a ∧ p = enc a ++ r) : Codec d enc ok where
  reads {p a r} hp := by
    obtain ⟨hok, rfl⟩ := (h p a r).1 hp
    exact ⟨enc a, rfl, hok, le_rfl, fun _ => rfl, fun r' => (h _ a r').2 ⟨hok, rfl⟩⟩
  writes {a r} hok := (h _ a r).2 ⟨hok, rfl⟩

theorem takeN {n : ℕ} : Codec (Decoder.takeN (β := β) e n) id (·.length = n) :=
  of_exact fun _ _ _ => Decoder.takeN_eq_ok

/-- The same codec, the values it is for said otherwise. -/
theorem of_iff (hd : Codec d enc ok) (h : ∀ a, ok a ↔ ok' a) : Codec d enc ok' where
  reads hp := by
    obtain ⟨c, rfl, hok, hrest⟩ := hd.reads hp
    exact ⟨c, rfl, (h _).1 hok, hrest⟩
  writes hok := hd.writes ((h _).2 hok)

/-- **A value, then another that depends on it.** The encoder has to find
the first again in what the second decoder gives. -/
theorem bind {f : α → Decoder ε β γ} {g : γ → α} (hd : Codec d enc ok)
    (hf : ∀ a, ok a → Codec (f a) enc' (fun c => okc c ∧ g c = a)) :
    Codec (d >>= f) (fun c => enc (g c) ++ enc' c) (fun c => ok (g c) ∧ okc c) where
  reads {p c r} h := by
    obtain ⟨a, q, hp, hq⟩ := Decoder.bind_eq_ok.1 h
    obtain ⟨x, rfl, hok, hlen, heq, hx⟩ := hd.reads hp
    obtain ⟨y, rfl, ⟨hokc, rfl⟩, hlen', heq', hy⟩ := (hf a hok).reads hq
    refine ⟨x ++ y, (List.append_assoc ..).symm, ⟨hok, hokc⟩, ?_, fun h => ?_, fun r' => ?_⟩
    · simp only [List.length_append]
      omega
    · simp only [List.length_append] at h
      rw [heq (by omega), heq' (by omega)]
    · rw [List.append_assoc, Decoder.bind_of_ok (hx _), hy]
  writes {c r} h := by
    rw [List.append_assoc, Decoder.bind_of_ok (hd.writes h.1)]
    exact (hf _ h.1).writes ⟨h.2, rfl⟩

/-- The value known already. -/
theorem pure : Codec (pure a : Decoder ε β α) (fun _ => []) (· = a) where
  reads {p b r} h := by
    obtain ⟨rfl, rfl⟩ : a = b ∧ p = r := by simpa [Decoder.pure_apply] using h
    exact ⟨[], rfl, rfl, le_rfl, fun _ => rfl, fun _ => rfl⟩
  writes h := by
    subst h
    rfl

theorem pair (hd : Codec d enc ok) (hd' : Codec d' enc' okc) :
    Codec (d.pair d') (fun x => enc x.1 ++ enc' x.2) (fun x => ok x.1 ∧ okc x.2) := by
  refine bind (g := Prod.fst) hd fun a _ => ?_
  have hlast : ∀ c, Codec (Pure.pure (a, c) : Decoder ε β (α × γ)) (fun _ => [])
      (fun x => x.1 = a ∧ x.2 = c) := fun c => pure.of_iff fun x => Prod.ext_iff
  have hsecond := bind (g := Prod.snd) hd' fun c _ => hlast c
  simp only [List.append_nil] at hsecond
  exact hsecond

/-- Read through a bijection of what is encoded. -/
theorem map {f : α → γ} {g : γ → α} (hd : Codec d enc ok)
    (hf : ∀ a, ok a → okc (f a) ∧ g (f a) = a) (hg : ∀ c, okc c → ok (g c) ∧ f (g c) = c) :
    Codec (f <$> d) (fun c => enc (g c)) okc := by
  have hlast : ∀ a, ok a → Codec (Pure.pure (f a) : Decoder ε β γ) (fun _ => [])
      (fun c => okc c ∧ g c = a) := fun a ha => pure.of_iff fun c =>
    ⟨by rintro rfl; exact hf a ha, fun h => by rw [← (hg c h.1).2, h.2]⟩
  have hmap := bind (g := g) hd hlast
  simp only [List.append_nil] at hmap
  rw [map_eq_pure_bind]
  exact hmap.of_iff fun c => ⟨And.right, fun h => ⟨(hg c h).1, h⟩⟩

theorem many {n : ℕ} (hd : Codec d enc ok) :
    Codec (d.many n) (fun v => v.flatMap enc) (fun v => v.length = n ∧ ∀ a ∈ v, ok a) := by
  induction n with
  | zero =>
    constructor
    · intro p v r h
      obtain ⟨rfl, rfl⟩ : [] = v ∧ p = r := by simpa [Decoder.many, Decoder.pure_apply] using h
      exact ⟨[], rfl, ⟨rfl, by simp⟩, le_rfl, fun _ => rfl, fun _ => rfl⟩
    · rintro v r ⟨hv, -⟩
      rw [List.length_eq_zero_iff.1 hv]
      rfl
  | succ n ih =>
    constructor
    · intro p v r h
      obtain ⟨a, q, ha, h⟩ := Decoder.bind_eq_ok.1 h
      obtain ⟨as, q', has, h⟩ := Decoder.bind_eq_ok.1 h
      obtain ⟨rfl, rfl⟩ : a :: as = v ∧ q' = r := by simpa [Decoder.pure_apply] using h
      obtain ⟨x, rfl, hok, hlen, heq, hx⟩ := hd.reads ha
      obtain ⟨y, rfl, ⟨hn, hoks⟩, hlen', heq', hy⟩ := ih.reads has
      refine ⟨x ++ y, (List.append_assoc ..).symm, ⟨by rw [List.length_cons, hn], ?_⟩, ?_, ?_, ?_⟩
      · exact List.forall_mem_cons.2 ⟨hok, hoks⟩
      · simp only [List.flatMap_cons, List.length_append]
        omega
      · intro h
        simp only [List.flatMap_cons, List.length_append] at h ⊢
        rw [heq (by omega), heq' (by omega)]
      · intro r'
        unfold Decoder.many
        rw [List.append_assoc, Decoder.bind_of_ok (hx _), Decoder.bind_of_ok (hy _)]
        rfl
    · rintro (_ | ⟨a, as⟩) r ⟨hn, hoks⟩
      · simp at hn
      · obtain ⟨hok, hoks⟩ := List.forall_mem_cons.1 hoks
        unfold Decoder.many
        rw [List.flatMap_cons, List.append_assoc, Decoder.bind_of_ok (hd.writes hok),
          Decoder.bind_of_ok (ih.writes ⟨Nat.succ.inj hn, hoks⟩)]
        rfl

/-- Refusing some values. -/
theorem check {c : α → Bool} (hd : Codec d enc ok) :
    Codec (d.check c e) enc (fun a => ok a ∧ c a = true) := by
  have hlast : ∀ a, ok a → Codec (if c a then Pure.pure a else throw e : Decoder ε β α)
      (fun _ => []) (fun b => c b = true ∧ b = a) := by
    intro a _
    by_cases hc : c a = true
    · rw [if_pos hc]
      exact pure.of_iff fun b => ⟨fun h => ⟨h ▸ hc, h⟩, And.right⟩
    · rw [if_neg hc]
      constructor
      · intro p b r h
        simp [Decoder.throw_apply] at h
      · rintro b r ⟨hb, rfl⟩
        exact absurd hb hc
  have hcheck := bind (g := id) hd hlast
  simp only [List.append_nil, id] at hcheck
  exact hcheck

/-- **A count, then as many values.** -/
theorem counted {dn : Decoder ε β ℕ} {encn : ℕ → List β} {okn : ℕ → Prop}
    (hn : Codec dn encn okn) (hd : Codec d enc ok) :
    Codec (dn >>= d.many) (fun v => encn v.length ++ v.flatMap enc)
      (fun v => okn v.length ∧ ∀ a ∈ v, ok a) :=
  bind (g := List.length) hn fun _ _ => hd.many.of_iff fun _ => and_comm

/-- A count, then as many elements. -/
theorem countedN {dn : Decoder ε β ℕ} {encn : ℕ → List β} {okn : ℕ → Prop}
    (hn : Codec dn encn okn) :
    Codec (dn >>= Decoder.takeN e) (fun v => encn v.length ++ v) (fun v : List β => okn v.length) := by
  have htake : ∀ n, okn n → Codec (Decoder.takeN (β := β) e n) id (fun v => True ∧ v.length = n) :=
    fun n _ => takeN.of_iff fun v => by rw [true_and]
  have hcount := bind (g := List.length) hn htake
  simp only [id, and_true] at hcount
  exact hcount

/-! ## Encodings apart -/

/-- **No encoding begins another**, whatever comes behind it. -/
theorem eq_of_prefix {b : α} (hd : Codec d enc ok) (ha : ok a) (hb : ok b)
    (h : enc a <+: enc b ++ r) : a = b := by
  obtain ⟨t, ht⟩ := h
  have hread := hd.writes (r := t) ha
  rw [ht, hd.writes hb] at hread
  exact (Prod.ext_iff.1 (Except.ok.inj hread)).1.symm

/-! ## Buffers cut short -/

/-- What was read is in front of what is left. -/
theorem length_le (hd : Codec d enc ok) (h : d p = .ok (a, r)) :
    (enc a).length + r.length ≤ p.length := by
  obtain ⟨c, rfl, -, hlen, -⟩ := hd.reads h
  rw [List.length_append]
  omega

/-- **Nothing decodes from less than was read.** -/
theorem fails_of_lt {n : ℕ} {x : α × List β} (hd : Codec d enc ok) (h : d p = .ok (a, r))
    (hn : n + r.length < p.length) : d (p.take n) ≠ .ok x := by
  intro hx
  obtain ⟨c, rfl, -, -, -, -⟩ := hd.reads h
  obtain ⟨c', hc', -, -, -, hc''⟩ := hd.reads hx
  -- what was read of the shorter buffer is read of the longer one too
  have hlonger := hc'' (x.2 ++ (c ++ r).drop n)
  rw [← List.append_assoc, ← hc', List.take_append_drop, h] at hlonger
  have hr := congrArg List.length (Prod.ext_iff.1 (Except.ok.inj hlonger)).2
  simp only [List.length_append, List.length_drop] at hr hn
  omega

/-- **Cut to the length its value is written in, a buffer decodes** exactly
where it begins with what the encoder writes, and then to that value. -/
theorem take_iff (hd : Codec d enc ok) (h : d p = .ok (a, r)) :
    (∃ x, d (p.take (enc a).length) = .ok x) ↔ enc a <+: p := by
  obtain ⟨c, hp, hok, hlen, heq, -⟩ := hd.reads h
  constructor
  · rintro ⟨x, hx⟩
    by_cases hc : c.length = (enc a).length
    · exact ⟨r, by rw [hp, heq hc]⟩
    · refine absurd hx (hd.fails_of_lt h ?_)
      rw [hp, List.length_append]
      omega
  · rintro ⟨q, rfl⟩
    have hw := hd.writes (r := []) hok
    rw [List.append_nil] at hw
    exact ⟨_, by rw [List.take_left' rfl, hw]⟩

end Codec

end CryptoBullion
