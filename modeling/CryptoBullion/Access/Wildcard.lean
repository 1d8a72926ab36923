import CryptoBullion.Common.Splits
import CryptoBullion.Model.Access
/-!
# Masks are globs

`WildcardMatch` splits a string along its mask: a question mark takes one
character, a star any number of them, and every other character itself.
`ClientAllowed` asks it about every client that is not on the machine
itself.
-/

namespace CryptoBullion

variable {str mask psz : List UInt8}

/-- What a character of a mask stands for. -/
def MaskChar.Takes (c : UInt8) (piece : List UInt8) : Prop :=
  if c = starChar then True
  else if c = questionChar then piece.length = 1
  else piece = [c]

/-- The string can be split along the mask. -/
def Globs (mask str : List UInt8) : Prop := SplitsAlong MaskChar.Takes mask str

/-- A question mark takes any one character. -/
theorem MaskChar.takes_question (piece : List UInt8) :
    MaskChar.Takes questionChar piece ↔ ∃ c, piece = [c] ∧ True := by
  unfold MaskChar.Takes
  rw [if_neg (by decide), if_pos rfl, List.length_eq_one_iff]
  simp

/-- Any other character takes itself. -/
theorem MaskChar.takes_other {c : UInt8} (hs : c ≠ starChar) (hq : c ≠ questionChar)
    (piece : List UInt8) : MaskChar.Takes c piece ↔ ∃ d, piece = [d] ∧ d = c := by
  unfold MaskChar.Takes
  rw [if_neg hs, if_neg hq]
  simp

/-! ## What each character does -/

/-- A star takes nothing, or a character and more. -/
theorem globs_star : Globs (starChar :: mask) psz ↔
    Globs mask psz ∨ ∃ d rest, psz = d :: rest ∧ Globs (starChar :: mask) rest :=
  splitsAlong_cons_of_any fun _ => by
    unfold MaskChar.Takes
    rw [if_pos rfl]
    trivial

theorem globs_question :
    Globs (questionChar :: mask) psz ↔ ∃ d rest, psz = d :: rest ∧ Globs mask rest := by
  rw [Globs, splitsAlong_cons_of_one MaskChar.takes_question]
  simp [Globs]

theorem globs_other {c : UInt8} (hs : c ≠ starChar) (hq : c ≠ questionChar) :
    Globs (c :: mask) psz ↔ ∃ rest, psz = c :: rest ∧ Globs mask rest := by
  rw [Globs, splitsAlong_cons_of_one (MaskChar.takes_other hs hq)]
  simp [Globs]

/-- **The loop splits along the mask.** A star is the only item that leaves
the mask where it is, and then the string is shorter. -/
theorem wildcardLoop_iff (psz mask : List UInt8) :
    wildcardLoop psz mask = true ↔ Globs mask psz := by
  fun_induction wildcardLoop psz mask with
  | case1 psz => rw [Globs, splitsAlong_nil, List.isEmpty_iff]
  | case2 psz mask hskip htake =>
    rw [globs_star, Bool.or_eq_true, hskip]
    refine or_congr_right ?_
    rcases psz with _ | ⟨d, psz⟩
    · simp
    · dsimp only at htake ⊢
      rw [htake]
      simp
  | case3 mask hs => simp [globs_question]
  | case4 mask d psz hs ih => rw [ih, globs_question]; simp
  | case5 c mask hs hq => simp [globs_other hs hq]
  | case6 c mask hs hq d psz hne => simp [globs_other hs hq, hne]
  | case7 c mask hs hq d psz heq ih =>
    rw [ne_eq, not_not] at heq
    rw [ih, globs_other hs hq, heq]
    simp

/-! ## Strings -/

/-- A string without a NUL is read to its end. -/
theorem cStr_eq_self (h : 0 ∉ str) : cStr str = str :=
  List.takeWhile_eq_self_iff.2 fun c hc => by
    rw [decide_eq_true_iff]
    rintro rfl
    exact h hc

/-- **`WildcardMatch` is glob matching.** -/
theorem wildcardMatch_iff (hstr : 0 ∉ str) (hmask : 0 ∉ mask) :
    wildcardMatch str mask = true ↔ Globs mask str := by
  unfold wildcardMatch
  rw [cStr_eq_self hstr, cStr_eq_self hmask, wildcardLoop_iff]

/-! ## Clients -/

namespace Address

/-- An IPv4 address in IPv6 form is the IPv4 address. -/
def unwrapped : Address → Address
  | .v6 addr =>
    if isV4Compatible addr || isV4Mapped addr then .v4 (addr.setWidth 32) else .v6 addr
  | .v4 addr => .v4 addr

/-- An address of the machine itself: `127.0.0.0/8` or `::1`. -/
def IsLoopback : Address → Prop
  | .v4 addr => addr &&& 0xff000000 = 0x7f000000
  | .v6 addr => addr = 1

end Address

section Clients

variable {toText : Address → List UInt8} {vAllow : List (List UInt8)} {address : Address}

/-- `127.0.0.1` is in `127.0.0.0/8`. -/
theorem Address.isLoopback_of_eq {addr : BitVec 32} (h : Address.v4 addr = loopbackV4) :
    addr &&& 0xff000000 = 0x7f000000 := by
  obtain rfl := Address.v4.inj h
  decide

theorem clientAllowedV4_iff {addr : BitVec 32} :
    clientAllowed.clientAllowedV4 toText vAllow addr = true ↔ Address.IsLoopback (.v4 addr) ∨
      ∃ strAllow ∈ vAllow, wildcardMatch (toText (.v4 addr)) strAllow = true := by
  unfold clientAllowed.clientAllowedV4
  rw [← List.any_eq_true, Address.IsLoopback]
  split_ifs with h
  · refine iff_of_true rfl (.inl ?_)
    simp only [Bool.or_eq_true, decide_eq_true_eq] at h
    exact h.elim Address.isLoopback_of_eq id
  · simp only [Bool.or_eq_true, decide_eq_true_eq, not_or] at h
    rw [or_iff_right h.2]

/-- **Who is admitted**: the machine itself, and whoever a mask matches. -/
theorem clientAllowed_iff : clientAllowed toText vAllow address = true ↔
    address.unwrapped.IsLoopback ∨
      ∃ strAllow ∈ vAllow, wildcardMatch (toText address.unwrapped) strAllow = true := by
  cases address with
  | v4 addr => exact clientAllowedV4_iff
  | v6 addr =>
    unfold clientAllowed Address.unwrapped
    dsimp only
    split_ifs with hv4 hloop
    · exact clientAllowedV4_iff
    · exact iff_of_true rfl (.inl (Address.v6.inj hloop))
    · have hne : ¬ Address.IsLoopback (.v6 addr) := fun h => hloop (congrArg Address.v6 h)
      rw [or_iff_right hne, ← List.any_eq_true]

end Clients

/-- **Masks are globs, and clients are admitted by them**, but for those on
the machine itself, which are always admitted. -/
theorem access_iff (str mask : List UInt8) (hstr : 0 ∉ str) (hmask : 0 ∉ mask) :
    (wildcardMatch str mask = true ↔ Globs mask str) ∧
      ∀ (toText : Address → List UInt8) (vAllow : List (List UInt8)) (address : Address),
        0 ∉ toText address.unwrapped → (∀ strAllow ∈ vAllow, 0 ∉ strAllow) →
          (clientAllowed toText vAllow address = true ↔ address.unwrapped.IsLoopback ∨
            ∃ strAllow ∈ vAllow, Globs strAllow (toText address.unwrapped)) := by
  refine ⟨wildcardMatch_iff hstr hmask, fun toText vAllow address htext hallow => ?_⟩
  rw [clientAllowed_iff]
  refine or_congr_right (exists_congr fun strAllow => and_congr_right fun hmem => ?_)
  exact wildcardMatch_iff htext (hallow strAllow hmem)

theorem access_iff_digits :
    (wildcardMatch (text "10.0.0.7") (text "10.0.*.?") = true ↔
        Globs (text "10.0.*.?") (text "10.0.0.7")) ∧
      (clientAllowed (fun _ => text "10.0.0.7") [text "10.0.*.?"] (.v4 0x0a000007) = true ↔
        (Address.v4 0x0a000007).unwrapped.IsLoopback ∨
          ∃ strAllow ∈ [text "10.0.*.?"], Globs strAllow (text "10.0.0.7")) := by
  have h := access_iff (text "10.0.0.7") (text "10.0.*.?") (by decide) (by decide)
  exact ⟨h.1, h.2 (fun _ => text "10.0.0.7") [text "10.0.*.?"] (.v4 0x0a000007) (by decide)
    (by decide)⟩

/-- A client on the machine itself is admitted without any mask. -/
theorem clientAllowed_unmatched :
    ¬ ∀ (toText : Address → List UInt8) (vAllow : List (List UInt8)) (address : Address),
      clientAllowed toText vAllow address = true ↔
        ∃ strAllow ∈ vAllow, wildcardMatch (toText address.unwrapped) strAllow = true := by
  intro h
  obtain ⟨strAllow, hmem, -⟩ := (h (fun _ => text "127.0.0.1") [] Address.loopbackV4).1 (by decide)
  exact absurd hmem List.not_mem_nil

end CryptoBullion
