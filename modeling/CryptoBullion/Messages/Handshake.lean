import CryptoBullion.Messages.Framing
import CryptoBullion.Model.Version
/-!
# Is the handshake first?

`pfrom->nVersion` is all that keeps a message from its handler, and it is
filled in before the version it holds is tested and before the rest of the
message is read. A version message that fails either way leaves it behind,
and the messages after it pass. So the handshake comes first exactly where
the first version message with a version in it is a good one, or nothing
that follows it would have been handled anyhow.
-/

namespace CryptoBullion

/-! ## A version message as a whole -/

/-- What a version message says. -/
structure VersionMessage where
  nVersion : ℤ
  nServices : ℕ
  nTime : ℤ
  addrMe : CAddress
  addrFrom : CAddress
  nNonce : ℕ
  strSubVer : List UInt8
  nStartingHeight : ℤ
  deriving DecidableEq, Repr

/-- The fields that old versions left out. -/
def VersionMessage.unserializeRest (nVersion : ℤ) (nServices : ℕ) (nTime : ℤ)
    (addrMe : CAddress) : Reader VersionMessage := do
  let (addrFrom, nNonce) ← readIfAny (CAddress.unserialize.pair (readLe 8)) (CAddress.init, 1)
  let strSubVer ← readIfAny unserializeBytes []
  let nStartingHeight ← readIfAny (readInt 4) (-1)
  return ⟨nVersion, nServices, nTime, addrMe, addrFrom, nNonce, strSubVer, nStartingHeight⟩

/-- All of it, before anything is done with it. -/
def VersionMessage.unserialize : Reader VersionMessage := do
  let nVersion ← readInt 4
  let nServices ← readLe 8
  let (nTime, addrMe) ← (readInt 8).pair CAddress.unserialize
  unserializeRest nVersion nServices nTime addrMe

/-- **A good version message** can be decoded completely, and its version
passes every test. -/
def Present.Admits (here : Present) (vMsg : List UInt8) : Prop :=
  ∃ v rest, VersionMessage.unserialize vMsg = .ok (v, rest) ∧ here.refuses v.nVersion = false

/-- The version in front, 0 where there is none. -/
def versionWord (vMsg : List UInt8) : ℤ :=
  match readInt 4 vMsg with
  | .error _ => 0
  | .ok (nVersion, _) => nVersion

/-- The branch for `version` was gone through to its end, or to where the
peer turns out to be this node. -/
def VersionEnd.Accepted (e : VersionEnd) : Prop := e = .self ∨ e = .connected

section Read

variable {α : Type} {d : Reader α} {a b : α} {p r : List UInt8}

/-- What was there before does not matter to what is left. -/
theorem readIfAny_congr (a' : α) (h : readIfAny d a p = .ok (b, r)) :
    ∃ b', readIfAny d a' p = .ok (b', r) := by
  unfold readIfAny at h ⊢
  split
  · rename_i hp
    rw [if_pos hp] at h
    exact ⟨a', by rw [(Prod.mk.inj (Except.ok.inj h)).2]⟩
  · rename_i hp
    rw [if_neg hp] at h
    exact ⟨b, h⟩

/-- Nor to whether anything is missing. -/
theorem readIfAny_error {f : Failure} (a' : α) (h : readIfAny d a p = .error f) :
    ∃ f', readIfAny d a' p = .error f' := by
  rcases h' : readIfAny d a' p with f' | ⟨b', r⟩
  · exact ⟨f', rfl⟩
  · obtain ⟨b, hb⟩ := readIfAny_congr a h'
    rw [h] at hb
    simp at hb

end Read

/-- The rest of a message does not change its version. -/
theorem nVersion_of_unserializeRest {nVersion nTime : ℤ} {nServices : ℕ} {addrMe : CAddress}
    {p rest : List UInt8} {v : VersionMessage}
    (h : VersionMessage.unserializeRest nVersion nServices nTime addrMe p = .ok (v, rest)) :
    v.nVersion = nVersion := by
  unfold VersionMessage.unserializeRest at h
  obtain ⟨_, _, -, h⟩ := Decoder.bind_eq_ok.1 h
  obtain ⟨_, _, -, h⟩ := Decoder.bind_eq_ok.1 h
  obtain ⟨_, _, -, h⟩ := Decoder.bind_eq_ok.1 h
  rw [← (Prod.mk.inj (Except.ok.inj h)).1]

namespace Handshake

variable {here : Present} {vMsg : List UInt8} {pfrom : Handshake} {m : Message}

variable {nVersion nTime : ℤ} {nServices : ℕ} {addrMe : CAddress}

/-- An accepted rest is there, as far as it goes. -/
theorem accepted_readRest :
    (readRest here vMsg pfrom).2.Accepted ↔ ∃ v rest,
      VersionMessage.unserializeRest nVersion nServices nTime addrMe vMsg = .ok (v, rest) ∧
        v.nVersion = nVersion := by
  unfold readRest VersionMessage.unserializeRest
  rcases h₁ : readIfAny (CAddress.unserialize.pair (readLe 8)) (CAddress.init, 1) vMsg with
    f | ⟨⟨addrFrom, nNonce⟩, r⟩
  · simp [VersionEnd.Accepted, Decoder.bind_of_error h₁]
  · rw [Decoder.bind_of_ok h₁]
    dsimp only
    rcases h₂ : readIfAny unserializeBytes [] r with f | ⟨strSubVer, r'⟩
    · obtain ⟨f', h₂'⟩ := readIfAny_error pfrom.strSubVer h₂
      simp [VersionEnd.Accepted, Decoder.bind_of_error h₂, h₂']
    · obtain ⟨strSubVer', h₂'⟩ := readIfAny_congr pfrom.strSubVer h₂
      rw [Decoder.bind_of_ok h₂]
      simp only [h₂']
      rcases h₃ : readIfAny (readInt 4) (-1) r' with f | ⟨nStartingHeight, r''⟩
      · obtain ⟨f', h₃'⟩ := readIfAny_error pfrom.nStartingHeight h₃
        simp [VersionEnd.Accepted, Decoder.bind_of_error h₃, h₃']
      · obtain ⟨nStartingHeight', h₃'⟩ := readIfAny_congr pfrom.nStartingHeight h₃
        rw [Decoder.bind_of_ok h₃]
        simp only [h₃']
        refine ⟨fun _ => ⟨_, r'', rfl, rfl⟩, fun _ => ?_⟩
        unfold connect VersionEnd.Accepted
        split
        · exact .inl rfl
        · exact .inr rfl

/-- **The branch accepts the good version messages**, although it tests
before it has read on. -/
theorem accepted_processVersion :
    (processVersion here vMsg pfrom).2.Accepted ↔ here.Admits vMsg := by
  unfold processVersion Present.Admits VersionMessage.unserialize
  rcases h₁ : readInt 4 vMsg with f | ⟨nVersion, r₁⟩
  · simp [VersionEnd.Accepted, Decoder.bind_of_error h₁]
  · simp only [Decoder.bind_of_ok h₁]
    rcases h₂ : readLe 8 r₁ with f | ⟨nServices, r₂⟩
    · simp [VersionEnd.Accepted, Decoder.bind_of_error h₂]
    · simp only [Decoder.bind_of_ok h₂]
      rcases h₃ : ((readInt 8).pair CAddress.unserialize) r₂ with f | ⟨⟨nTime, addrMe⟩, r₃⟩
      · simp [VersionEnd.Accepted, Decoder.bind_of_error h₃]
      · simp only [Decoder.bind_of_ok h₃]
        -- the tests see the version that the whole message has
        by_cases hrefuses : here.refuses nVersion = true
        · rw [if_pos hrefuses]
          simp only [VersionEnd.Accepted, reduceCtorEq, or_self, false_iff]
          rintro ⟨v, rest, hv, hadmits⟩
          rw [nVersion_of_unserializeRest hv, hrefuses] at hadmits
          exact absurd hadmits (by decide)
        · rw [if_neg hrefuses]
          have hadmits : ∀ {v rest},
              VersionMessage.unserializeRest nVersion nServices nTime addrMe r₃ = .ok (v, rest) →
                here.refuses v.nVersion = false := by
            intro v rest hv
            rw [nVersion_of_unserializeRest hv]
            exact Bool.not_eq_true _ ▸ hrefuses
          have hiff : ∀ pfrom, (readRest here r₃ pfrom).2.Accepted ↔ ∃ v rest,
              VersionMessage.unserializeRest nVersion nServices nTime addrMe r₃ = .ok (v, rest) ∧
                here.refuses v.nVersion = false := by
            intro pfrom
            rw [accepted_readRest]
            exact exists₂_congr fun v rest => and_congr_right fun hv =>
              ⟨fun _ => hadmits hv, fun _ => nVersion_of_unserializeRest hv⟩
          split
          · exact hiff _
          · exact hiff _

/-! ## The version that is left behind -/

theorem nVersion_readRest : (readRest here vMsg pfrom).1.nVersion = pfrom.nVersion := by
  have hconnect : ∀ nNonce (pfrom : Handshake),
      (connect here nNonce pfrom).1.nVersion = pfrom.nVersion := by
    intro nNonce pfrom
    unfold connect
    split
    · rfl
    · rfl
  unfold readRest
  split
  · rfl
  · split
    · rfl
    · dsimp only
      split
      · rfl
      · exact hconnect _ _

/-- The version is kept, whatever becomes of the message. -/
theorem nVersion_processVersion (h0 : pfrom.nVersion = 0) :
    (processVersion here vMsg pfrom).1.nVersion = versionWord vMsg := by
  unfold processVersion versionWord
  rcases h₁ : readInt 4 vMsg with f | ⟨nVersion, r₁⟩
  · exact h0
  · dsimp only
    rcases h₂ : readLe 8 r₁ with f | ⟨nServices, r₂⟩
    · rfl
    · dsimp only
      rcases h₃ : ((readInt 8).pair CAddress.unserialize) r₂ with f | ⟨x, r₃⟩
      · rfl
      · dsimp only
        by_cases hrefuses : here.refuses nVersion = true
        · rw [if_pos hrefuses]
        · rw [if_neg hrefuses]
          split
          · -- a version that is replaced has been refused
            rename_i h10300
            subst h10300
            exact absurd (by simp [Present.refuses, hardforkProtocolVersion]) hrefuses
          · exact nVersion_readRest

theorem fSuccessfullyConnected_readRest :
    (readRest here vMsg pfrom).1.fSuccessfullyConnected = pfrom.fSuccessfullyConnected ∨
      (readRest here vMsg pfrom).2.Accepted := by
  unfold readRest
  split
  · exact .inl rfl
  · split
    · exact .inl rfl
    · dsimp only
      split
      · exact .inl rfl
      · unfold connect
        split
        · exact .inl rfl
        · exact .inr (.inr rfl)

/-- **Only an accepted version message** makes the peer a connected one. -/
theorem fSuccessfullyConnected_processVersion :
    (processVersion here vMsg pfrom).1.fSuccessfullyConnected = pfrom.fSuccessfullyConnected ∨
      (processVersion here vMsg pfrom).2.Accepted := by
  unfold processVersion
  split
  · exact .inl rfl
  · split
    · exact .inl rfl
    · dsimp only
      split
      · exact .inl rfl
      · split
        · exact .inl rfl
        · split
          · exact fSuccessfullyConnected_readRest
          · exact fSuccessfullyConnected_readRest

/-! ## Message after message -/

variable {now : List Message → Present} {pre ms : List Message}

theorem after_concat :
    after now (pre ++ [m]) = (processMessage (now (pre ++ [m])) m (after now pre)).1 := by
  have hfst : ∀ (ms : List Message) (s : List Message × Handshake),
      (ms.foldl (fun (s : List Message × Handshake) m =>
        (s.1 ++ [m], (processMessage (now (s.1 ++ [m])) m s.2).1)) s).1 = s.1 ++ ms := by
    intro ms
    induction ms with
    | nil => simp
    | cons m ms ih =>
      intro s
      rw [List.foldl_cons, ih]
      simp
  unfold after
  rw [List.foldl_append, List.foldl_cons, List.foldl_nil, hfst, List.nil_append]

/-! ## One message -/

/-- The message puts a version into a peer that has none. -/
def Speaks (here : Present) (m : Message) : Prop :=
  here.fDropped = false ∧ m.strCommand = versionCommand ∧ versionWord m.vMsg ≠ 0

/-- The message has no handler to reach, whatever came before it. -/
def Stopped (here : Present) (nVersion : ℤ) (m : Message) : Prop :=
  here.fDropped = true ∨ m.strCommand = versionCommand ∨
    (here.atForkV4 = true ∧ nVersion < hardforkProtocolVersionV4)

/-- **The version of a peer is its first.** -/
theorem nVersion_processMessage_of_ne (h : pfrom.nVersion ≠ 0) :
    (processMessage here m pfrom).1.nVersion = pfrom.nVersion := by
  unfold processMessage
  repeat' split
  all_goals rfl

theorem nVersion_processMessage_of_speaks (h0 : pfrom.nVersion = 0) (h : Speaks here m) :
    (processMessage here m pfrom).1.nVersion = versionWord m.vMsg := by
  unfold processMessage
  rw [if_neg (by rw [h.1]; decide), if_neg (fun h' => h'.1 h0), if_pos h.2.1,
    if_neg (not_not_intro h0)]
  exact nVersion_processVersion h0

theorem nVersion_processMessage_of_not_speaks (h0 : pfrom.nVersion = 0) (h : ¬ Speaks here m) :
    (processMessage here m pfrom).1.nVersion = 0 := by
  unfold processMessage
  by_cases hdropped : here.fDropped = true
  · rw [if_pos hdropped]
    exact h0
  · rw [if_neg hdropped, if_neg (fun h' => h'.1 h0)]
    by_cases hversion : m.strCommand = versionCommand
    · rw [if_pos hversion, if_neg (not_not_intro h0)]
      dsimp only
      rw [nVersion_processVersion h0]
      by_contra hword
      exact h ⟨Bool.not_eq_true _ ▸ hdropped, hversion, hword⟩
    · rw [if_neg hversion, if_pos h0]
      exact h0

/-- **A handler is reached** with a version, by what is not stopped. -/
theorem processMessage_handler_iff :
    (processMessage here m pfrom).2 = .handler ↔
      pfrom.nVersion ≠ 0 ∧ ¬ Stopped here pfrom.nVersion m := by
  unfold processMessage Stopped
  by_cases hdropped : here.fDropped = true
  · simp [hdropped]
  · by_cases h0 : pfrom.nVersion = 0
    · by_cases hversion : m.strCommand = versionCommand
      · simp [hdropped, h0, hversion]
      · simp [hdropped, h0, hversion]
    · by_cases hfork : here.atForkV4 = true ∧ pfrom.nVersion < hardforkProtocolVersionV4
      · simp [hdropped, h0, hfork]
      · by_cases hversion : m.strCommand = versionCommand
        · simp [hdropped, h0, hfork, hversion]
        · simp [hdropped, h0, hfork, hversion]

/-- **A version message is gone through** in a peer without a version,
where it is not dropped. -/
theorem processMessage_version_iff {e : VersionEnd} :
    (processMessage here m pfrom).2 = .version e ↔
      pfrom.nVersion = 0 ∧ here.fDropped = false ∧ m.strCommand = versionCommand ∧
        (processVersion here m.vMsg pfrom).2 = e := by
  unfold processMessage
  by_cases hdropped : here.fDropped = true
  · simp [hdropped]
  · by_cases h0 : pfrom.nVersion = 0
    · by_cases hversion : m.strCommand = versionCommand
      · simp [hdropped, h0, hversion]
      · simp [hdropped, h0, hversion]
    · by_cases hfork : here.atForkV4 = true ∧ pfrom.nVersion < hardforkProtocolVersionV4
      · simp [hdropped, h0, hfork]
      · by_cases hversion : m.strCommand = versionCommand
        · simp [hdropped, h0, hfork, hversion]
        · simp [hdropped, h0, hfork, hversion]

/-! ## From the first message on -/

/-- `v`, after `pre`, is the first message to say a version. -/
def FirstWord (now : List Message → Present) (pre : List Message) (v : Message) : Prop :=
  Speaks (now (pre ++ [v])) v ∧ ∀ p m, p ++ [m] <+: pre → ¬ Speaks (now (p ++ [m])) m

/-- `v`, after `pre`, is a version message that was decoded completely and
passed the tests. -/
def Accepted (now : List Message → Present) (pre : List Message) (v : Message) : Prop :=
  (∃ e, fate now pre v = .version e) ∧ (now (pre ++ [v])).Admits v.vMsg

/-- **The handshake comes first**: what reaches its handler has an accepted
version message before it, and so has what counts as connected. -/
def ComesFirst (now : List Message → Present) (ms : List Message) : Prop :=
  (∀ pre m, pre ++ [m] <+: ms → fate now pre m = .handler →
    ∃ p v, p ++ [v] <+: pre ∧ Accepted now p v) ∧
  ∀ pre, pre <+: ms → (after now pre).fSuccessfullyConnected = true →
    ∃ p v, p ++ [v] <+: pre ∧ Accepted now p v

/-- **The first version is a good one, or of no use**: the first message to
say a version is a good version message, or all that comes after it is
stopped. -/
def FirstWordGood (now : List Message → Present) (ms : List Message) : Prop :=
  ∀ pre v, pre ++ [v] <+: ms → FirstWord now pre v → (now (pre ++ [v])).Admits v.vMsg ∨
    ∀ q m, pre ++ [v] <+: q → q ++ [m] <+: ms → Stopped (now (q ++ [m])) (versionWord v.vMsg) m

/-- An accepted version is none of the old ones. -/
theorem versionWord_ne_zero (h : here.Admits vMsg) : versionWord vMsg ≠ 0 := by
  obtain ⟨v, rest, hv, hadmits⟩ := h
  unfold VersionMessage.unserialize at hv
  obtain ⟨nVersion, r₁, h₁, hv⟩ := Decoder.bind_eq_ok.1 hv
  obtain ⟨nServices, r₂, -, hv⟩ := Decoder.bind_eq_ok.1 hv
  obtain ⟨⟨nTime, addrMe⟩, r₃, -, hv⟩ := Decoder.bind_eq_ok.1 hv
  rw [nVersion_of_unserializeRest hv] at hadmits
  unfold versionWord
  rw [h₁]
  rintro rfl
  exact absurd hadmits (by simp [Present.refuses, minProtoVersion])

/-- **The run.** The version of a peer is the one its first word put there,
and 0 before. -/
theorem nVersion_after (now : List Message → Present) (ms : List Message) :
    ((after now ms).nVersion = 0 ∧ ∀ p m, p ++ [m] <+: ms → ¬ Speaks (now (p ++ [m])) m) ∨
      ∃ pre v, pre ++ [v] <+: ms ∧ FirstWord now pre v ∧
        (after now ms).nVersion = versionWord v.vMsg := by
  induction ms using List.reverseRecOn with
  | nil =>
    refine .inl ⟨rfl, fun p m h => ?_⟩
    exact absurd (List.prefix_nil.1 h) (by simp)
  | append_singleton ms m ih =>
    rcases ih with ⟨h0, hsilent⟩ | ⟨pre, v, hpre, hfirst, hversion⟩
    · by_cases hspeaks : Speaks (now (ms ++ [m])) m
      · refine .inr ⟨ms, m, List.prefix_rfl, ⟨hspeaks, hsilent⟩, ?_⟩
        rw [after_concat]
        exact nVersion_processMessage_of_speaks h0 hspeaks
      · refine .inl ⟨?_, fun p x hx => ?_⟩
        · rw [after_concat]
          exact nVersion_processMessage_of_not_speaks h0 hspeaks
        · rcases List.prefix_concat_iff.1 hx with heq | hx
          · obtain ⟨rfl, hm⟩ := List.append_inj' heq rfl
            obtain rfl : x = m := by simpa using hm
            exact hspeaks
          · exact hsilent p x hx
    · refine .inr ⟨pre, v, hpre.trans (List.prefix_append ..), hfirst, ?_⟩
      rw [after_concat, nVersion_processMessage_of_ne, hversion]
      rw [hversion]
      exact hfirst.1.2.2

/-- A good version message is accepted where it is the first word. -/
theorem accepted_of_firstWord {v : Message} (h : FirstWord now pre v)
    (hgood : (now (pre ++ [v])).Admits v.vMsg) : Accepted now pre v := by
  refine ⟨⟨_, processMessage_version_iff.2 ⟨?_, h.1.1, h.1.2.1, rfl⟩⟩, hgood⟩
  rcases nVersion_after now pre with ⟨h0, -⟩ | ⟨p, w, hp, hw, -⟩
  · exact h0
  · exact absurd hw.1 (h.2 p w hp)

/-- And what is accepted is the first word. -/
theorem firstWord_of_accepted {v : Message} (h : Accepted now pre v) : FirstWord now pre v := by
  obtain ⟨⟨e, he⟩, hgood⟩ := h
  obtain ⟨h0, hdropped, hcommand, -⟩ := processMessage_version_iff.1 he
  refine ⟨⟨hdropped, hcommand, versionWord_ne_zero hgood⟩, ?_⟩
  rcases nVersion_after now pre with ⟨-, hsilent⟩ | ⟨p, w, hp, hw, hversion⟩
  · exact hsilent
  · exact absurd (hversion.symm.trans h0) hw.1.2.2

/-- There is one first word. -/
theorem firstWord_unique {pre' : List Message} {v v' : Message} (h : FirstWord now pre v)
    (h' : FirstWord now pre' v') (hms : pre ++ [v] <+: ms) (hms' : pre' ++ [v'] <+: ms) :
    pre = pre' ∧ v = v' := by
  rcases List.prefix_or_prefix_of_prefix hms hms' with hle | hle
  · rcases List.prefix_concat_iff.1 hle with heq | hlt
    · obtain ⟨rfl, hv⟩ := List.append_inj' heq rfl
      exact ⟨rfl, by simpa using hv⟩
    · exact absurd h.1 (h'.2 pre v hlt)
  · rcases List.prefix_concat_iff.1 hle with heq | hlt
    · obtain ⟨rfl, hv⟩ := List.append_inj' heq rfl
      exact ⟨rfl, by simpa using hv.symm⟩
    · exact absurd h'.1 (h.2 pre' v' hlt)

/-- A connected peer has been accepted, whatever else went wrong. -/
theorem accepted_of_fSuccessfullyConnected (ms : List Message)
    (h : (after now ms).fSuccessfullyConnected = true) :
    ∃ p v, p ++ [v] <+: ms ∧ Accepted now p v := by
  induction ms using List.reverseRecOn with
  | nil => exact absurd h Bool.false_ne_true
  | append_singleton ms m ih =>
    rw [after_concat] at h
    by_cases hbefore : (after now ms).fSuccessfullyConnected = true
    · obtain ⟨p, v, hp, hv⟩ := ih hbefore
      exact ⟨p, v, hp.trans (List.prefix_append ..), hv⟩
    · refine ⟨ms, m, List.prefix_rfl, ?_⟩
      cases hfate : fate now ms m with
      | version e =>
        refine ⟨⟨e, hfate⟩, ?_⟩
        obtain ⟨h0, hdropped, hcommand, -⟩ := processMessage_version_iff.1 hfate
        have hend : (processVersion (now (ms ++ [m])) m.vMsg
              (after now ms)).1.fSuccessfullyConnected =
              (after now ms).fSuccessfullyConnected ∨
            (processVersion (now (ms ++ [m])) m.vMsg (after now ms)).2.Accepted :=
          fSuccessfullyConnected_processVersion
        rcases hend with hsame | haccepted
        · unfold processMessage at h
          rw [if_neg (by rw [hdropped]; decide), if_neg (fun h' => h'.1 h0), if_pos hcommand,
            if_neg (not_not_intro h0)] at h
          exact absurd (hsame.symm.trans h) hbefore
        · exact accepted_processVersion.1 haccepted
      | _ =>
        -- nothing else touches the flag
        unfold fate processMessage at hfate
        unfold processMessage at h
        repeat' split at h
        all_goals simp_all

/-- **When the handshake comes first**: where the first version is a good
one, or of no use. -/
theorem comesFirst_iff (now : List Message → Present) (ms : List Message) :
    ComesFirst now ms ↔ FirstWordGood now ms := by
  constructor
  · rintro ⟨hhandler, -⟩ pre v hpre hfirst
    by_contra hbad
    obtain ⟨hbad, hfree⟩ := not_or.1 hbad
    push Not at hfree
    obtain ⟨q, m, hq, hm, hstopped⟩ := hfree
    -- a message that is not stopped finds the version of the first word
    have hversion : (after now q).nVersion = versionWord v.vMsg := by
      rcases nVersion_after now q with ⟨-, hsilent⟩ | ⟨p, w, hp, hw, hversion⟩
      · exact absurd hfirst.1 (hsilent pre v hq)
      · obtain ⟨rfl, rfl⟩ := firstWord_unique hfirst hw hq hp
        exact hversion
    have hreached : fate now q m = .handler := by
      refine processMessage_handler_iff.2 ⟨?_, ?_⟩
      · rw [hversion]
        exact hfirst.1.2.2
      · rw [hversion]
        exact hstopped
    obtain ⟨p, w, hp, hw⟩ := hhandler q m hm hreached
    obtain ⟨rfl, rfl⟩ := firstWord_unique hfirst (firstWord_of_accepted hw) hq hp
    exact hbad hw.2
  · intro hgood
    refine ⟨fun pre m hm hreached => ?_,
      fun pre _ => accepted_of_fSuccessfullyConnected pre⟩
    obtain ⟨hne, hstopped⟩ := processMessage_handler_iff.1 hreached
    rcases nVersion_after now pre with ⟨h0, -⟩ | ⟨p, v, hp, hv, hversion⟩
    · exact absurd h0 hne
    · refine ⟨p, v, hp, accepted_of_firstWord hv ?_⟩
      have hpre : pre <+: ms := (List.prefix_append ..).trans hm
      rcases hgood p v (hp.trans hpre) hv with h | h
      · exact h
      · exact absurd (hversion ▸ h pre m hp hm) hstopped

end Handshake

/-! ## Off the wire -/

variable [P : Platform]

theorem receiveChunks_terminates (env : Surroundings) : ∀ (chunks : List (List UInt8))
    (pfrom : CNode), ∃ pfrom', receiveChunks env pfrom chunks = some (.ok pfrom')
  | [], pfrom => ⟨pfrom, rfl⟩
  | chunk :: chunks, pfrom => by
    obtain ⟨p₁, h₁⟩ := processMessages_terminates env
      (if pfrom.fSocketOpen then { pfrom with vRecv := pfrom.vRecv.append chunk } else pfrom)
    obtain ⟨p₂, h₂⟩ := receiveChunks_terminates env chunks p₁
    refine ⟨p₂, ?_⟩
    unfold receiveChunks receiveChunk
    rw [h₁]
    exact h₂

/-- **When the handshake comes first**, for whatever a peer sends, however
it arrives, and whatever goes on around it. -/
theorem comesFirst_received (env : Surroundings) (now : List Message → Present)
    (chunks : List (List UInt8)) :
    ∃ pfrom, receiveChunks env CNode.connected chunks = some (.ok pfrom) ∧
      (Handshake.ComesFirst now pfrom.processed ↔
        Handshake.FirstWordGood now pfrom.processed) := by
  obtain ⟨pfrom, h⟩ := receiveChunks_terminates env chunks CNode.connected
  exact ⟨pfrom, h, Handshake.comesFirst_iff now pfrom.processed⟩

/-! ## A version message cut short -/

namespace CutShort

/-- A node without blocks, that drops nothing. -/
def now : List Message → Present := fun _ => ⟨false, none, 0, false⟩

/-- The four bytes of version 60010. -/
def version : Message := ⟨Handshake.versionCommand, [0x6a, 0xea, 0, 0]⟩

def verack : Message := ⟨[118, 101, 114, 97, 99, 107], []⟩

/-- Both, on the wire. -/
def chunks : List (List UInt8) :=
  [[0xcd, 0xf2, 0xc0, 0xef] ++ version.strCommand ++ [0, 0, 0, 0, 0, 4, 0, 0, 0, 0, 0, 0, 0] ++
      version.vMsg,
    [0xcd, 0xf2, 0xc0, 0xef] ++ verack.strCommand ++ [0, 0, 0, 0, 0, 0, 0, 0, 0, 0, 0, 0, 0, 0]]

omit [P : Platform] in
/-- **The handshake does not come first**: `verack` is handled, although
the version message before it could not be decoded. -/
theorem not_comesFirst :
    letI := Platform.toy
    ¬ ∀ (env : Surroundings) (now : List Message → Present) (chunks : List (List UInt8))
      (pfrom : CNode), receiveChunks env CNode.connected chunks = some (.ok pfrom) →
        Handshake.ComesFirst now pfrom.processed := by
  let := Platform.toy
  intro hall
  have hrun : receiveChunks quietSurroundings CNode.connected chunks =
      some (.ok ⟨CDataStream.clear, true, [version, verack]⟩) := by
    decide +kernel
  have hhandled : Handshake.fate now [version] verack = .handler := by
    decide +kernel
  obtain ⟨p, v, hp, ⟨e, he⟩, hadmits⟩ :=
    (hall quietSurroundings now chunks _ hrun).1 [version] verack List.prefix_rfl hhandled
  have hlen : p = [] ∧ v = version := by
    rcases p with _ | ⟨x, p⟩
    · exact ⟨rfl, by simpa using hp⟩
    · have := hp.length_le
      simp at this
  obtain ⟨rfl, rfl⟩ := hlen
  -- its second field is missing
  have hthrown : (Handshake.processVersion (now ([] ++ [version])) version.vMsg
      Handshake.init).2 = .thrown (.exception "CDataStream::read() : end of data") := by
    decide +kernel
  have haccepted : (Handshake.processVersion (now ([] ++ [version])) version.vMsg
      Handshake.init).2.Accepted := Handshake.accepted_processVersion.2 hadmits
  rw [hthrown] at haccepted
  simp [VersionEnd.Accepted] at haccepted

end CutShort

end CryptoBullion
