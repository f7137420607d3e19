import LasFile.Proofs.Header.RoundTrip
import LasFile.Proofs.Outcome
import LasFile.Proofs.Text.Decoded

/-!
# Headers written again

A header that was read is in a form that writing and reading keep: its signature is the one that is
written, and what its version has no field for is what reading puts there. Only its texts may
change, for a text with replacement characters can take more bytes than the field it was read from.
-/

namespace LasFile

namespace Read

/-! ## What reads ensure -/

variable {α β : Type} {order : ByteOrder} {bs : Bytes} {place size : Nat} {r : ByteReader}

/-- Whatever a step gives for a reader has the property. -/
def Ensures (read : Read α) (r : ByteReader) (P : α → Prop) : Prop :=
  ∀ a t, read r = .ok a t → P a

theorem ensures_pure {a : α} {P : α → Prop} (h : P a) : Ensures (pure a) r P := by
  rintro _ _ ⟨⟩
  exact h

theorem ensures_bind {read : Read α} {next : α → Read β} {P : β → Prop}
    (h : ∀ a t, read r = .ok a t → Ensures (next a) t P) : Ensures (read >>= next) r P := by
  intro b t hb
  obtain ⟨a, u, ha, hnext⟩ := Stateful.bind_eq_ok.1 hb
  exact h a u ha b t hnext

theorem ensures_throw_bind {e : Error} {next : α → Read β} {P : β → Prop} :
    Ensures (throw e >>= next) r P := by
  apply ensures_bind
  rintro a t ⟨⟩

theorem ensures_ite {c : Prop} [Decidable c] {read other : Read α} {P : α → Prop}
    (hread : c → Ensures read r P) (hother : ¬c → Ensures other r P) :
    Ensures (if c then read else other) r P := by
  split
  next hc => exact hread hc
  next hc => exact hother hc

/-- A step in front of others that takes some bytes. -/
theorem Takes.ensures_bind {read : Read α} {value : Bytes → α}
    (hread : Takes order read size value) {next : α → Read β} {P : β → Prop}
    (hnext : Ensures (next (value (bs.slice place size))) (.standing order bs (place + size)) P) :
    Ensures (read >>= next) (.standing order bs place) P := by
  apply Read.ensures_bind
  intro a t ha
  rcases Nat.lt_or_ge bs.length (place + size) with hshort | hroom
  · obtain ⟨_, herror⟩ := (hread bs place).2 hshort
    cases herror.symm.trans ha
  · cases ((hread bs place).1 hroom).symm.trans ha
    exact hnext

/-- A step that moves the reader by some bytes, whatever it gives. -/
def Moves (order : ByteOrder) (read : Read α) (size : Nat) : Prop :=
  ∀ (bs : Bytes) (place : Nat) (a : α) (t : ByteReader),
    read (.standing order bs place) = .ok a t → t = .standing order bs (place + size)

theorem Takes.moves {read : Read α} {value : Bytes → α} (hread : Takes order read size value) :
    Moves order read size := by
  intro bs place a t ha
  rcases Nat.lt_or_ge bs.length (place + size) with hshort | hroom
  · obtain ⟨_, herror⟩ := (hread bs place).2 hshort
    cases herror.symm.trans ha
  · cases ((hread bs place).1 hroom).symm.trans ha
    rfl

theorem moves_pure (a : α) : Moves order (pure a) 0 := by
  rintro bs place _ _ ⟨⟩
  rfl

theorem Moves.bind {read : Read α} {next : α → Read β} {more : Nat}
    (hread : Moves order read size) (hnext : ∀ a, Moves order (next a) more) :
    Moves order (read >>= next) (size + more) := by
  intro bs place b t hb
  obtain ⟨a, u, ha, hrest⟩ := Stateful.bind_eq_ok.1 hb
  obtain rfl := hread bs place a u ha
  rw [← Nat.add_assoc]
  exact hnext a bs (place + size) b t hrest

/-- A step in front of others that moves the reader. -/
theorem Moves.ensures_bind {read : Read α} (hread : Moves order read size) {next : α → Read β}
    {P : β → Prop} (hnext : ∀ a, Ensures (next a) (.standing order bs (place + size)) P) :
    Ensures (read >>= next) (.standing order bs place) P := by
  apply Read.ensures_bind
  intro a t ha
  obtain rfl := hread bs place a t ha
  exact hnext a

theorem takes_u32 (order : ByteOrder) : Takes order Read.u32 4 (.ofNat ∘ order.toNat) :=
  (takes_number order (by decide)).map _

theorem moves_times {read : Read α} (hread : Moves order read size) (n : Nat) :
    Moves order (Read.times read n) (n * size) := by
  induction n with
  | zero =>
    rw [Nat.zero_mul]
    exact moves_pure _
  | succ n ih =>
    rw [Nat.succ_mul]
    exact ih.bind fun _ ↦ hread.bind fun _ ↦ moves_pure _

end Read

namespace Header

open Read

/-! ## Headers that were read -/

variable {order : ByteOrder} {bs : Bytes} {h : Header}

/-- What reading the fields of every version says of a header. -/
structure CommonRead (bs : Bytes) (h : Header) : Prop where
  signature : h.signature = fileSignature
  major : h.version.major = 1
  minor : h.version.minor ≤ 4
  systemId : h.systemId = FixedText.decode (bs.slice 26 32)
  software : h.software = FixedText.decode (bs.slice 58 32)

theorem moves_readProjectId : Moves order readProjectId 16 :=
  (takes_u32 order).moves.bind fun _ ↦ (takes_u16 order).moves.bind fun _ ↦
    (takes_u16 order).moves.bind fun _ ↦
      (moves_times (takes_u8 order).moves 8).bind fun _ ↦ moves_pure _

theorem ensures_readCommon : Ensures readCommon (.standing order bs 0) fun h ↦
    CommonRead bs h ∧ h.evlrOffset = 0 ∧ h.evlrCount = 0 := by
  unfold readCommon
  refine (takes_text order (by decide)).ensures_bind ?_
  refine ensures_ite (fun hsignature ↦ ?_) fun _ ↦ ensures_throw_bind
  refine (takes_u16 order).ensures_bind ?_
  refine ((takes_u16 order).map _).ensures_bind ?_
  refine moves_readProjectId.ensures_bind fun projectId ↦ ?_
  refine (takes_u8 order).ensures_bind ?_
  refine (takes_u8 order).ensures_bind ?_
  refine ensures_ite (fun _ ↦ ensures_throw_bind) fun hversion ↦ ?_
  refine (takes_text order (by decide)).ensures_bind ?_
  refine (takes_text order (by decide)).ensures_bind ?_
  -- The fields behind the texts are taken as they are.
  iterate 12 refine ensures_bind fun _ _ _ ↦ ?_
  apply ensures_pure
  rw [not_or, not_not, UInt8.not_lt] at hversion
  exact ⟨⟨hsignature, hversion.1, hversion.2, rfl, rfl⟩, rfl, rfl⟩

/-- What a header that was read has in the fields that its version does not have. -/
structure Settled (h : Header) : Prop where
  waveformStart : h.version.hasWaveform = false → h.waveformStart = 0
  evlrOffset : h.version.isExtended = false → h.evlrOffset = 0
  evlrCount : h.version.isExtended = false → h.evlrCount = 0
  points : h.version.isExtended = false → h.points = h.legacyPoints.toUInt64
  byReturn : h.version.isExtended = false → h.byReturn = widened h.legacyByReturn

theorem ensures_readCounts {r : ByteReader} (hcommon : CommonRead bs h)
    (hwaveform : h.version.hasWaveform = false → h.waveformStart = 0) (hoffset : h.evlrOffset = 0)
    (hcount : h.evlrCount = 0) :
    Ensures (readCounts h) r fun g ↦ CommonRead bs g ∧ Settled g := by
  unfold readCounts
  refine ensures_ite (fun hextended ↦ ?_) fun _ ↦ ?_
  · iterate 4 refine ensures_bind fun _ _ _ ↦ ?_
    apply ensures_pure
    have hnever {p : Prop} (hno : h.version.isExtended = false) : p := by
      rw [hextended] at hno
      cases hno
    exact ⟨⟨hcommon.1, hcommon.2, hcommon.3, hcommon.4, hcommon.5⟩, hwaveform, hnever, hnever,
      hnever, hnever⟩
  · apply ensures_pure
    exact ⟨⟨hcommon.1, hcommon.2, hcommon.3, hcommon.4, hcommon.5⟩, hwaveform, fun _ ↦ hoffset,
      fun _ ↦ hcount, fun _ ↦ rfl, fun _ ↦ rfl⟩

/-- Where nothing is known to be wrong with the size, the header is given as it was read. -/
theorem ensures_checked {read : Read Header} {r : ByteReader} {P : Header → Prop}
    (hread : Ensures read r P) {refuse : Header → Read Header}
    (hrefuse : ∀ h t, Ensures (refuse h) t P) {c : Header → Prop} [DecidablePred c] :
    Ensures (read >>= fun h ↦ if c h then refuse h else pure h) r P :=
  ensures_bind fun h t hh ↦ ensures_ite (fun _ ↦ hrefuse h t) fun _ ↦ ensures_pure (hread h t hh)

theorem ensures_read (r : ByteReader) :
    Ensures read r fun h ↦ CommonRead r.source.bytes h ∧ Settled h := by
  unfold read
  apply ensures_bind
  rintro _ _ ⟨⟩
  apply ensures_bind
  intro common t hread
  obtain ⟨hcommon, hoffset, hcount⟩ := ensures_readCommon common t hread
  have hsame (start : UInt64) : CommonRead r.source.bytes { common with waveformStart := start } :=
    ⟨hcommon.1, hcommon.2, hcommon.3, hcommon.4, hcommon.5⟩
  refine ensures_ite (fun hwaveform ↦ ensures_bind fun start u _ ↦ ?_) fun _ ↦ ensures_bind ?_
  · refine ensures_checked (ensures_readCounts (hsame start) (fun hnone ↦ ?_) hoffset hcount)
      fun _ _ ↦ ensures_throw_bind
    cases hwaveform.symm.trans hnone
  · rintro _ u ⟨⟩
    exact ensures_checked (ensures_readCounts (hsame 0) (fun _ ↦ rfl) hoffset hcount)
      fun _ _ ↦ ensures_throw_bind

/-! ## Writing again -/

/-- A header that was read is written and read as it is, but for its texts and its size. -/
theorem reread_eq_of_read (hcommon : CommonRead bs h) (hsettled : Settled h) : h.reread =
    { h with
      systemId := FixedText.cut 32 h.systemId
      software := FixedText.cut 32 h.software
      headerSize := Version.headerSize h.version.minor } := by
  have hwaveform : (if h.version.hasWaveform then h.waveformStart else 0) = h.waveformStart := by
    cases hversion : h.version.hasWaveform with
    | true => rfl
    | false => exact (hsettled.waveformStart hversion).symm
  have hcounts : (if h.version.isExtended then h.evlrOffset else 0) = h.evlrOffset ∧
      (if h.version.isExtended then h.evlrCount else 0) = h.evlrCount ∧
      (if h.version.isExtended then h.points else h.legacyPoints.toUInt64) = h.points ∧
      (if h.version.isExtended then h.byReturn else widened h.legacyByReturn) = h.byReturn := by
    cases hversion : h.version.isExtended with
    | true => exact ⟨rfl, rfl, rfl, rfl⟩
    | false =>
      exact ⟨(hsettled.evlrOffset hversion).symm, (hsettled.evlrCount hversion).symm,
        (hsettled.points hversion).symm, (hsettled.byReturn hversion).symm⟩
  obtain ⟨hoffset, hcount, hpoints, hreturns⟩ := hcounts
  have hsystemId : FixedText.stored 32 h.systemId = FixedText.cut 32 h.systemId := by
    rw [hcommon.systemId, FixedText.stored_decode]
  have hsoftware : FixedText.stored 32 h.software = FixedText.cut 32 h.software := by
    rw [hcommon.software, FixedText.stored_decode]
  calc h.reread
      = { h with
          signature := fileSignature
          systemId := FixedText.cut 32 h.systemId
          software := FixedText.cut 32 h.software
          headerSize := Version.headerSize h.version.minor } := by
        rw [reread, rereadCommon, hwaveform, hoffset, hcount, hpoints, hreturns, hsystemId,
          hsoftware]
        rfl
    _ = { h with
          systemId := FixedText.cut 32 h.systemId
          software := FixedText.cut 32 h.software
          headerSize := Version.headerSize h.version.minor } := by
        rw [← hcommon.signature]

/-- Writing a header that was read, and reading it again, for all bytes that are accepted, readers
at any place and either byte order. The second reading gives the same header, with the size of its
version, except that each of its two texts is cut to the longest prefix of whole characters that
fits its field. A text is the same exactly if it takes at most the 32 bytes of the field, and it
does if the bytes that it was read from are those of some characters. -/
theorem read_of_rewritten {r t : ByteReader} {h : Header} (hread : read r = .ok h t)
    {s : ByteReader} {rest : Bytes}
    (hbytes : s.source.bytes = Item.encodeAll s.order h.items ++ rest) :
    (∃ u, read s = .ok
      { h with
        systemId := FixedText.cut 32 h.systemId
        software := FixedText.cut 32 h.software
        headerSize := Version.headerSize h.version.minor } u) ∧
      (FixedText.cut 32 h.systemId = h.systemId ↔ h.systemId.utf8ByteSize ≤ 32) ∧
      (FixedText.cut 32 h.software = h.software ↔ h.software.utf8ByteSize ≤ 32) ∧
      (∀ cs, (r.source.bytes.slice 26 32).takeWhile (· != 0) = Utf8.encode cs →
        FixedText.cut 32 h.systemId = h.systemId) ∧
      ∀ cs, (r.source.bytes.slice 58 32).takeWhile (· != 0) = Utf8.encode cs →
        FixedText.cut 32 h.software = h.software := by
  obtain ⟨hcommon, hsettled⟩ := ensures_read r h t hread
  have hreread := read_items h hcommon.major hcommon.minor hbytes
  rw [reread_eq_of_read hcommon hsettled] at hreread
  refine ⟨⟨_, hreread⟩, ?_⟩
  rw [hcommon.systemId, hcommon.software]
  have hfits {bytes : Bytes} {place : Nat} (cs : List Char)
      (hcs : (bytes.slice place 32).takeWhile (· != 0) = Utf8.encode cs) :
      FixedText.cut 32 (FixedText.decode (bytes.slice place 32)) =
        FixedText.decode (bytes.slice place 32) := by
    apply FixedText.cut_decode_eq_self_iff.2
    exact (FixedText.utf8ByteSize_decode_le hcs).trans (List.length_take_le _ _)
  exact ⟨FixedText.cut_decode_eq_self_iff, FixedText.cut_decode_eq_self_iff, hfits, hfits⟩

/-- A header whose system is not named in characters: 32 bytes of which none begins one. -/
def unnamedSystem : Bytes := blank.encode.overwrite 26 (.replicate 32 0xFF)

/-- Ten of the 32 replacement characters are left, and the rest of the header is the same. -/
theorem read_of_rewritten_unnamedSystem : ∃ h t u,
    read (.ofBytes .little unnamedSystem) = .ok h t ∧ h.systemId.length = 32 ∧
      read (.ofBytes .big (Item.encodeAll .big h.items)) =
        .ok { h with systemId := .ofList (.replicate 10 Utf8.replacement) } u := by
  have hrun : (match read (.ofBytes .little unnamedSystem) with
      | .ok h _ => some (h.systemId.length, FixedText.cut 32 h.systemId, h.software, h.headerSize,
          h.version)
      | .error _ _ => none) =
        some (32, .ofList (.replicate 10 Utf8.replacement), "", 227, ⟨1, 2⟩) := by
    decide +kernel
  split at hrun
  next h t hread =>
    simp only [Option.some.injEq, Prod.mk.injEq] at hrun
    obtain ⟨hlength, hsystem, hsoftware, hsize, hversion⟩ := hrun
    obtain ⟨⟨u, hagain⟩, -⟩ := read_of_rewritten hread
      (s := .ofBytes .big (Item.encodeAll .big h.items)) (List.append_nil _).symm
    have hsame : { h with
        systemId := FixedText.cut 32 h.systemId
        software := FixedText.cut 32 h.software
        headerSize := Version.headerSize h.version.minor } =
          { h with systemId := .ofList (.replicate 10 Utf8.replacement) } := by
      have hempty : FixedText.cut 32 "" = "" := by decide
      have hlegacy : Version.headerSize 2 = 227 := by decide
      rw [hsystem, hsoftware, hversion, hempty, hlegacy, ← hsoftware, ← hsize, ← hversion]
    rw [hsame] at hagain
    exact ⟨h, t, u, hread, hlength, hagain⟩
  next => cases hrun

/-- The header is not the same once it was written and read again, also apart from its size. -/
theorem not_reread_unnamedSystem : ∃ h g, decode unnamedSystem = .ok h ∧
    decode h.encode = .ok g ∧ { g with headerSize := h.headerSize } ≠ h := by
  have hrun : (do
      let h ← decode unnamedSystem
      let g ← decode h.encode
      return decide ({ g with headerSize := h.headerSize } ≠ h) : Except Error Bool) =
        .ok true := by decide +kernel
  simp only [Outcome.bind_eq_ok, Outcome.pure_eq_ok, decide_eq_true_eq] at hrun
  obtain ⟨h, hread, g, hagain, hne⟩ := hrun
  exact ⟨h, g, hread, hagain, hne⟩

end Header

end LasFile
