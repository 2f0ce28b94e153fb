import Nsdci.Img.Size

/-!
# The sizes `ImgStat` reports

When a file comes through the input translation (`Kept`), `ImgStat` reports and caches the width and
height it has; for GIF and BMP files, and files that are not well-formed, only then
(`imgStat_dimensions`).
-/

namespace Nsdci.Img

open Lib

/-! ## Bytes of a file -/

theorem getD_of_drop {file rest : Bytes} {k : Nat} {b : UInt8} (h : file.drop k = b :: rest) :
    file.getD k 0 = b ∧ file.drop (k + 1) = rest := by
  constructor
  · rw [List.getD_eq_getElem?_getD, ← List.head?_drop, h]
    rfl
  · rw [← List.drop_drop, h]
    rfl

theorem le16_of_drop {file rest : Bytes} {k : Nat} {a b : UInt8}
    (h : file.drop k = a :: b :: rest) : le16 file k = ofBe16 [b, a] := by
  obtain ⟨ha, h⟩ := getD_of_drop h
  obtain ⟨hb, -⟩ := getD_of_drop h
  rw [le16, ha, hb]

theorem le32_of_drop {file rest : Bytes} {k : Nat} {a b c d : UInt8}
    (h : file.drop k = a :: b :: c :: d :: rest) : le32 file k = ofBe32 [d, c, b, a] := by
  obtain ⟨ha, h⟩ := getD_of_drop h
  obtain ⟨hb, h⟩ := getD_of_drop h
  obtain ⟨hc, h⟩ := getD_of_drop h
  obtain ⟨hd, -⟩ := getD_of_drop h
  rw [le32, ha, hb, hc, hd]

/-- **Bytes of a file come through exactly if there is no carriage return among them.** -/
theorem take_seek_iff (file : Bytes) (k n : Nat) :
    (seek file k).take n = (file.drop k).take n ↔ 13 ∉ (file.drop k).take n := by
  constructor
  · intro h hmem
    rw [← h] at hmem
    exact notMem_eol _ _ (List.mem_of_mem_take hmem)
  · intro h
    obtain ⟨saw, hsaw⟩ := eol_append false ((file.drop k).drop n) (not_crLf_of_notMem h)
      Bool.noConfusion
    rw [List.take_append_drop, map_eolByte h] at hsaw
    rw [seek, hsaw]
    generalize file.drop k = s
    by_cases hn : n ≤ s.length
    · exact List.take_left' (List.length_take_of_le hn)
    · rw [List.drop_eq_nil_of_le (Nat.le_of_not_le hn)]
      show (s.take n ++ []).take n = _
      rw [List.append_nil, List.take_take, Nat.min_self]

/-! ## GIF and BMP -/

theorem gifSize_eq_some {file : Bytes} {a b c d : UInt8} {dims : Dims}
    (hdims : dims = (((ofBe16 [b, a] : Nat) : Int), ((ofBe16 [d, c] : Nat) : Int))) :
    gifSize file = some dims ↔ (seek file 6).take 4 = [a, b, c, d] := by
  subst hdims
  constructor
  · intro h
    unfold gifSize at h
    split at h
    · next a' b' c' d' hbytes =>
        obtain ⟨hw, hh⟩ := Prod.mk.inj (Option.some.inj h)
        rw [shift_or_ofBe16, Int.natCast_inj] at hw hh
        have hlow : [b', a'] = [b, a] := ofBe16_inj rfl rfl hw
        have hhigh : [d', c'] = [d, c] := ofBe16_inj rfl rfl hh
        rw [hbytes]
        grind
    · exact nomatch h
  · intro h
    unfold gifSize
    rw [h]
    dsimp only
    rw [shift_or_ofBe16, shift_or_ofBe16]

theorem bmpSize_eq_some {file : Bytes} {a b c d e f g h : UInt8} {dims : Dims}
    (hdims : dims = (int32 (ofBe32 [d, c, b, a]), int32 (ofBe32 [h, g, f, e]))) :
    bmpSize file = some dims ↔ (seek file 18).take 8 = [a, b, c, d, e, f, g, h] := by
  subst hdims
  constructor
  · intro heq
    unfold bmpSize at heq
    split at heq
    · next a' b' c' d' e' f' g' h' hbytes =>
        obtain ⟨hw, hh⟩ := Prod.mk.inj (Option.some.inj heq)
        rw [shift_or_ofBe32] at hw hh
        have hlow : [d', c', b', a'] = [d, c, b, a] := int32_ofBe32_inj rfl rfl hw
        have hhigh : [h', g', f', e'] = [h, g, f, e] := int32_ofBe32_inj rfl rfl hh
        rw [hbytes]
        grind
    · exact nomatch heq
  · intro heq
    unfold bmpSize
    rw [heq]
    dsimp only
    rw [shift_or_ofBe32, shift_or_ofBe32]

theorem exists_four {s : Bytes} (h : 4 ≤ s.length) :
    ∃ a b c d rest, s = a :: b :: c :: d :: rest := by
  match s, h with
  | a :: b :: c :: d :: rest, _ => exact ⟨a, b, c, d, rest, rfl⟩

/-- `GifSize` finds the size exactly if there is no carriage return in it. -/
theorem gifSize_iff {file : Bytes} {dims : Dims} (h : gifDims file = some dims) :
    gifSize file = some dims ↔ 13 ∉ (file.drop 6).take 4 := by
  unfold gifDims at h
  split at h
  · next hfile =>
      obtain rfl := Option.some.inj h
      obtain ⟨a, b, c, d, rest, hdrop⟩ := exists_four (s := file.drop 6) (by
        rw [List.length_drop]
        omega)
      have hdrop' : file.drop 8 = c :: d :: rest := (getD_of_drop (getD_of_drop hdrop).2).2
      rw [le16_of_drop hdrop, le16_of_drop hdrop', gifSize_eq_some rfl, ← take_seek_iff, hdrop]
      rfl
  · exact nomatch h

/-- What a byte at the start of the channel is, if it gives itself or no line feed. -/
theorem eol_first {b c : UInt8} {bs cs : Bytes} (h : eol false (b :: bs) = c :: cs)
    (hc : c = b ∨ c ≠ 10) : b = c ∧ eol false bs = cs := by
  have hb : b ≠ 13 := by
    intro hb
    rw [eol_cons, eolByte, if_pos hb] at h
    have hc' : c = 10 := (List.cons.inj h).1.symm
    rcases hc with hcb | hne
    · rw [hb, hc'] at hcb
      exact absurd hcb (by simp)
    · exact hne hc'
  rw [eol_cons_of_ne hb] at h
  exact List.cons.inj h

theorem exists_eight {s : Bytes} (h : 8 ≤ s.length) :
    ∃ a b c d e f g i rest, s = a :: b :: c :: d :: e :: f :: g :: i :: rest := by
  match s, h with
  | a :: b :: c :: d :: e :: f :: g :: i :: rest, _ => exact ⟨a, b, c, d, e, f, g, i, rest, rfl⟩

/-- A number of two bytes as one of four. -/
theorem ofBe16_eq_int32 (a b : UInt8) :
    ((ofBe16 [a, b] : Nat) : Int) = int32 (ofBe32 [0, 0, a, b]) := by
  have hvalue : ofBe32 [0, 0, a, b] = ofBe16 [a, b] := by
    show 0 * 16777216 + 0 * 65536 + a.toNat * 256 + b.toNat = a.toNat * 256 + b.toNat
    omega
  have hlt := ofBe16_lt [a, b]
  rw [hvalue, int32_natCast_eq_iff.mpr (by omega)]

/-- In a header of 12 bytes `BmpSize` does not find the size. -/
theorem bmpSize_ne_core {file : Bytes} (hlength : 26 ≤ file.length) (hplanes : le16 file 22 = 1) :
    bmpSize file ≠ some ((le16 file 18 : Int), (le16 file 20 : Int)) := by
  intro h
  obtain ⟨r0, r1, r2, r3, r4, r5, r6, r7, rest, hdrop⟩ := exists_eight (s := file.drop 18) (by
    rw [List.length_drop]
    omega)
  have hdrop2 : file.drop 20 = r2 :: r3 :: r4 :: r5 :: r6 :: r7 :: rest :=
    (getD_of_drop (getD_of_drop hdrop).2).2
  have hdrop4 : file.drop 22 = r4 :: r5 :: r6 :: r7 :: rest :=
    (getD_of_drop (getD_of_drop hdrop2).2).2
  rw [le16_of_drop hdrop, le16_of_drop hdrop2, ofBe16_eq_int32, ofBe16_eq_int32,
    bmpSize_eq_some rfl] at h
  have hseek := List.take_append_drop 8 (seek file 18)
  rw [h, seek, hdrop] at hseek
  -- the first two bytes are the width, and the next two are no height
  obtain ⟨-, hseek⟩ := eol_first hseek.symm (Or.inl rfl)
  obtain ⟨-, hseek⟩ := eol_first hseek (Or.inl rfl)
  obtain ⟨hr2, hseek⟩ := eol_first hseek (Or.inr (by simp))
  obtain ⟨-, hseek⟩ := eol_first hseek (Or.inr (by simp))
  obtain ⟨hr4, -⟩ := eol_first hseek (Or.inr (by simp [hr2]))
  rw [le16_of_drop hdrop4, hr4, hr2] at hplanes
  have hvalue : r5.toNat * 256 + 0 = 1 := hplanes
  omega

/-- `BmpSize` finds the size exactly if the header is not of the oldest kind and there is no
carriage return in the size. -/
theorem bmpSize_iff {file : Bytes} {dims : Dims} (h : bmpDims file = some dims) :
    bmpSize file = some dims ↔ bmpHeaderSize file ≠ 12 ∧ 13 ∉ (file.drop 18).take 8 := by
  unfold bmpDims at h
  split at h
  · next hfile =>
      split at h
      · next hcore =>
          split at h
          · next hplanes =>
              obtain rfl := Option.some.inj h
              exact iff_of_false (bmpSize_ne_core hfile.2.1 hplanes) fun hkept => hkept.1 hcore
          · exact nomatch h
      · next hcore =>
          split at h
          · obtain rfl := Option.some.inj h
            obtain ⟨r0, r1, r2, r3, r4, r5, r6, r7, rest, hdrop⟩ :=
              exists_eight (s := file.drop 18) (by
                rw [List.length_drop]
                omega)
            have hdrop4 : file.drop 22 = r4 :: r5 :: r6 :: r7 :: rest :=
              (getD_of_drop (getD_of_drop (getD_of_drop (getD_of_drop hdrop).2).2).2).2
            rw [le32_of_drop hdrop, le32_of_drop hdrop4, bmpSize_eq_some rfl, and_iff_right hcore,
              ← take_seek_iff, hdrop]
            rfl
          · exact nomatch h
  · exact nomatch h

/-! ## JPEG -/

theorem mem_mSof_iff (code : UInt8) : code ∈ mSof ↔ IsFrame code := by
  simp only [mSof, List.mem_cons, List.not_mem_nil, or_false, IsFrame, ← UInt8.toNat_inj, ne_eq,
    UInt8.le_iff_toNat_le, UInt8.reduceToNat]
  omega

/-- A step of `JpegSize`. -/
theorem jpegSize_eq (chan : Bytes) : jpegSize chan =
    (nextMarker chan).bind fun (marker, chan₁) =>
      if marker ∈ mSof then frameSize chan₁
      else if marker = mSos ∨ marker = mEoi then none
      else (skipVariable chan₁).bind jpegSize := by
  rw [jpegSize]
  split
  · next hmarker =>
      rw [hmarker]
      rfl
  · next marker chan₁ hmarker =>
      rw [hmarker]
      show _ = if marker ∈ mSof then _ else _
      split_ifs
      · rfl
      · rfl
      · split
        · next hskip =>
            rw [hskip]
            rfl
        · next chan₂ hskip =>
            rw [hskip]
            rfl

/-- A second fill byte does not matter. -/
theorem nextMarker_fill (chan : Bytes) :
    nextMarker (0xff :: 0xff :: chan) = nextMarker (0xff :: chan) :=
  rfl

/-- Bytes without `FF` are passed by. -/
theorem nextMarker_append {front : Bytes} (h : 0xff ∉ front) (chan : Bytes) :
    nextMarker (front ++ chan) = nextMarker chan := by
  unfold nextMarker
  rw [List.dropWhile_append_of_pos]
  intro b hb
  exact decide_eq_true fun heq => h (heq ▸ hb)

/-- A marker is found behind its fill bytes. -/
theorem nextMarker_marker (fill : Nat) {code : UInt8} (hcode : code ≠ 0xff) (chan : Bytes) :
    nextMarker (0xff :: (List.replicate fill 0xff ++ code :: chan)) = some (code, chan) := by
  induction fill with
  | zero =>
      unfold nextMarker
      rw [List.dropWhile_cons_of_neg (by simp)]
      show read1Byte ((code :: chan).dropWhile (· = 0xff)) = _
      rw [List.dropWhile_cons_of_neg (by simpa using hcode)]
      rfl
  | succ fill ih =>
      rw [List.replicate_succ, List.cons_append, nextMarker_fill]
      exact ih

theorem read2Bytes_eq (a b : UInt8) (chan : Bytes) :
    read2Bytes (a :: b :: chan) = some (ofBe16 [a, b], chan) := by
  show some (a.toNat <<< 8 + b.toNat, chan) = _
  rw [Nat.shiftLeft_eq]
  rfl

theorem exists_be16 (x : Int) : ∃ a b, be16 x = [a, b] := ⟨_, _, rfl⟩

theorem read2Bytes_be16 {n : Nat} (h : n < 65536) (chan : Bytes) :
    read2Bytes (be16 n ++ chan) = some (n, chan) := by
  have hvalue : ofBe16 (be16 n) = n := by
    have hcast := ofBe16_be16 n
    omega
  obtain ⟨a, b, hab⟩ := exists_be16 n
  rw [hab] at hvalue ⊢
  rw [List.cons_append, List.cons_append, List.nil_append, read2Bytes_eq, hvalue]

/-- The content of a segment is passed by. -/
theorem skipVariable_segment {content : Bytes} (h : content.length + 2 < 65536) (chan : Bytes) :
    skipVariable (be16 (content.length + 2 : Nat) ++ (content ++ chan)) = some chan := by
  have hlength : (content.length + 2 + 4294967294) % 4294967296 = content.length := by omega
  have hle : content.length ≤ (content ++ chan).length := List.length_append ▸ Nat.le_add_right _ _
  unfold skipVariable
  rw [read2Bytes_be16 h, Option.bind_eq_bind, Option.bind_some]
  dsimp only
  rw [hlength, if_pos hle, List.drop_left]
  rfl

/-! ### What comes through -/

theorem eolByte_fill : eolByte 0xff = 0xff := rfl

/-- The code of a segment starts no frame, ends nothing, and is no fill byte. -/
theorem segment_code (segment : Segment) : eolByte segment.code ∉ mSof ∧
    ¬(eolByte segment.code = mSos ∨ eolByte segment.code = mEoi) ∧ eolByte segment.code ≠ 0xff := by
  unfold eolByte
  split_ifs
  · exact ⟨by decide, by decide, by decide⟩
  · refine ⟨fun h => segment.notFrame ((mem_mSof_iff _).mp h), ?_, segment.notFill⟩
    rintro (h | h)
    · exact segment.notScan h
    · exact segment.notAlone (h ▸ by decide)

/-- A segment as it comes through. -/
theorem map_segment {segment : Segment} (h : 13 ∉ be16 (segment.content.length + 2 : Nat)) :
    segment.tail.map eolByte = List.replicate segment.fill 0xff ++ eolByte segment.code ::
      (be16 (segment.content.length + 2 : Nat) ++ segment.content.map eolByte) := by
  rw [Segment.tail, Segment.body, List.map_append, List.map_replicate, eolByte_fill, List.map_cons,
    List.map_append, map_eolByte h]

/-- **A segment is passed by.** -/
theorem jpegSize_segment {segment : Segment} (h : 13 ∉ be16 (segment.content.length + 2 : Nat))
    (chan : Bytes) : jpegSize (0xff :: (segment.tail.map eolByte ++ chan)) = jpegSize chan := by
  obtain ⟨hframe, hend, hfill⟩ := segment_code segment
  rw [jpegSize_eq, map_segment h, List.append_assoc, List.cons_append,
    nextMarker_marker _ hfill, List.append_assoc]
  show (if eolByte segment.code ∈ mSof then _ else _) = _
  rw [if_neg hframe, if_neg hend]
  have hlength : (segment.content.map eolByte).length = segment.content.length := List.length_map _
  rw [← hlength, skipVariable_segment (hlength.symm ▸ segment.fits)]
  rfl

theorem frame_code (frame : Frame) : eolByte frame.code = frame.code ∧ frame.code ≠ 0xff := by
  constructor
  · refine if_neg fun h => ?_
    exact absurd (h ▸ frame.frame) (by decide)
  · intro h
    exact absurd (h ▸ frame.frame) (by decide)

/-- A frame header as it comes through. -/
theorem map_frame {frame : Frame} (h : 13 ∉ frame.dimBytes) : ∃ a b c,
    frame.tail.map eolByte = List.replicate frame.fill 0xff ++ frame.code :: a :: b :: c ::
      frame.dimBytes := by
  obtain ⟨a, b, hab⟩ := exists_be16 (frame.components.length + 7 : Nat)
  refine ⟨eolByte a, eolByte b, eolByte frame.precision, ?_⟩
  rw [Frame.tail, hab, List.map_append, List.map_append, List.map_replicate, eolByte_fill,
    List.map_cons, List.map_cons (l := frame.dimBytes), map_eolByte h, (frame_code frame).1,
    List.append_assoc]
  rfl

/-- **The size of a frame header is found.** -/
theorem jpegSize_frame {frame : Frame} (h : 13 ∉ frame.dimBytes) (chan : Bytes) :
    jpegSize (0xff :: (frame.tail.map eolByte ++ chan)) =
      some frame.dims := by
  obtain ⟨a, b, c, hmap⟩ := map_frame h
  rw [jpegSize_eq, hmap, List.append_assoc, List.cons_append,
    nextMarker_marker _ (frame_code frame).2]
  show (if frame.code ∈ mSof then frameSize (a :: b :: c :: (frame.dimBytes ++ chan)) else _) = _
  rw [if_pos ((mem_mSof_iff _).mpr frame.frame), frameSize, read2Bytes_eq]
  show (read2Bytes (frame.height.1 :: frame.height.2 ::
    (frame.width.1 :: frame.width.2 :: chan))).bind (fun h =>
      (read2Bytes h.2).bind fun w => some ((w.1 : Int), (h.1 : Int))) = _
  rw [read2Bytes_eq]
  show (read2Bytes (frame.width.1 :: frame.width.2 :: chan)).bind
    (fun w => some ((w.1 : Int), _)) = _
  rw [read2Bytes_eq]
  rfl

theorem segmentBytes_cons (segment : Segment) (segments : List Segment) :
    segmentBytes (segment :: segments) = 0xff :: segment.tail ++ segmentBytes segments :=
  List.flatMap_cons

/-- **The size is found behind any segments.** -/
theorem jpegSize_segments {segments : List Segment} {frame : Frame}
    (hlengths : ∀ segment ∈ segments, 13 ∉ be16 (segment.content.length + 2 : Nat))
    (hdims : 13 ∉ frame.dimBytes) (chan : Bytes) :
    jpegSize ((segmentBytes segments ++ 0xff :: frame.tail).map eolByte ++ chan) =
      some frame.dims := by
  induction segments with
  | nil => exact jpegSize_frame hdims chan
  | cons segment segments ih =>
      rw [segmentBytes_cons, List.append_assoc, List.map_append, List.map_cons, eolByte_fill,
        List.append_assoc, List.cons_append, jpegSize_segment (hlengths segment List.mem_cons_self)]
      exact ih fun segment h => hlengths segment (List.mem_cons_of_mem _ h)

/-- The first segment by itself. -/
theorem segments_split (segment : Segment) (segments : List Segment) (frame : Frame)
    (rest : Bytes) :
    segmentBytes (segment :: segments) ++ 0xff :: frame.tail ++ rest =
      0xff :: (segment.tail ++ (segmentBytes segments ++ 0xff :: frame.tail ++ rest)) := by
  simp only [segmentBytes_cons, List.append_assoc, List.cons_append]

/-- Segments and a frame header start with `FF`. -/
theorem head_segments (segments : List Segment) (frame : Frame) :
    (segmentBytes segments ++ 0xff :: frame.tail).head? = some 0xff := by
  cases segments with
  | nil => rfl
  | cons segment segments => rfl

theorem jpegSize_clean {segments : List Segment} {frame : Frame} (h : Clean segments frame)
    (sawCR : Bool) (rest : Bytes) :
    jpegSize (eol sawCR (segmentBytes segments ++ 0xff :: frame.tail ++ rest)) =
      some frame.dims := by
  have hhead : sawCR = true → (segmentBytes segments ++ 0xff :: frame.tail).head? ≠ some 10 := by
    intro _
    rw [head_segments]
    simp
  obtain ⟨saw, hsaw⟩ := eol_append sawCR rest h.crLf hhead
  rw [hsaw]
  exact jpegSize_segments h.lengths h.dims _

theorem jpegSize_congr {chan chan' : Bytes} (h : nextMarker chan = nextMarker chan') :
    jpegSize chan = jpegSize chan' := by
  rw [jpegSize_eq, jpegSize_eq, h]

/-- The first `FF` is not needed when a second one follows. -/
theorem jpegSize_fill {bytes : Bytes} {dims : Dims} (h : bytes.head? = some 0xff)
    (hsize : jpegSize (eol false (0xff :: bytes)) = some dims) :
    jpegSize (eol false bytes) = some dims := by
  obtain ⟨bytes, rfl⟩ : ∃ bytes', bytes = 0xff :: bytes' := by
    cases bytes with
    | nil => exact nomatch h
    | cons b bytes => exact ⟨bytes, by rw [Option.some.inj h]⟩
  rw [eol_cons_of_ne (by simp), eol_cons_of_ne (by simp),
    jpegSize_congr (nextMarker_fill _)] at hsize
  rw [eol_cons_of_ne (by simp)]
  exact hsize

theorem head_fill {fill : Nat} (h : 0 < fill) (s : Bytes) :
    (List.replicate fill (0xff : UInt8) ++ s).head? = some 0xff := by
  obtain ⟨fill, rfl⟩ := Nat.exists_eq_succ_of_ne_zero h.ne'
  rfl

/-- The first marker without its `FF`. -/
theorem seek_jpeg (s : Bytes) : (seek (0xff :: 0xd8 :: 0xff :: s) 0).drop 3 = eol false s := by
  show (eol false (0xff :: 0xd8 :: 0xff :: s)).drop 3 = _
  rw [eol_cons_of_ne (by simp), eol_cons_of_ne (by simp), eol_cons_of_ne (by simp)]
  rfl

/-- **The size of a file that is in step is found.** -/
theorem jpegSize_inStep {jpeg : Jpeg} (h : InStep jpeg) :
    jpegSize ((seek jpeg.bytes 0).drop 3) = some jpeg.frame.dims := by
  obtain ⟨segments, frame, rest⟩ := jpeg
  cases segments with
  | nil =>
      obtain ⟨hfill, hclean⟩ := h
      show jpegSize
        ((seek (0xff :: 0xd8 :: 0xff :: (frame.tail ++ (frame.components ++ rest))) 0).drop 3) = _
      rw [seek_jpeg]
      refine jpegSize_fill ?_ (jpegSize_clean hclean false _)
      rw [Frame.tail, List.append_assoc, List.append_assoc]
      exact head_fill hfill _
  | cons segment segments =>
      have hbytes : Jpeg.bytes ⟨segment :: segments, frame, rest⟩ =
          0xff :: 0xd8 :: 0xff :: (segment.tail ++
            (segmentBytes segments ++ 0xff :: frame.tail ++ (frame.components ++ rest))) := by
        show 0xff :: 0xd8 :: (segmentBytes (segment :: segments) ++ 0xff :: frame.tail ++ _) = _
        rw [segments_split]
      rw [hbytes, seek_jpeg]
      rcases h with ⟨hfill, hclean⟩ | ⟨hfill, hbody, hclean⟩
      · have hsize := jpegSize_clean hclean false (frame.components ++ rest)
        rw [segments_split] at hsize
        refine jpegSize_fill ?_ hsize
        rw [Segment.tail, List.append_assoc]
        exact head_fill hfill _
      · -- what is between the first two markers is passed by
        obtain ⟨front, saw, heq, hfront⟩ := eol_split false segment.tail
          (segmentBytes segments ++ 0xff :: frame.tail ++ (frame.components ++ rest))
        rw [heq]
        have hnot : 0xff ∉ front := by
          intro hmem
          rcases hfront _ hmem with h | h
          · exact absurd h (by simp)
          · rw [Segment.tail, hfill] at h
            rcases List.mem_cons.mp h with h | h
            · exact segment.notFill h.symm
            · exact hbody h
        rw [jpegSize_congr (nextMarker_append hnot _)]
        exact jpegSize_clean hclean saw _

/-! ### One file has one size -/

/-- What follows a marker is determined by the bytes. -/
theorem marker_inj {fill fill' : Nat} {code code' : UInt8} {s s' : Bytes} (hcode : code ≠ 0xff)
    (hcode' : code' ≠ 0xff) (h : 0xff :: (List.replicate fill 0xff ++ code :: s) =
      0xff :: (List.replicate fill' 0xff ++ code' :: s')) : code = code' ∧ s = s' := by
  have hmarker := nextMarker_marker fill hcode s
  rw [h, nextMarker_marker fill' hcode' s'] at hmarker
  exact Prod.mk.inj (Option.some.inj hmarker.symm)

theorem frame_ne_segment {frame : Frame} {segment : Segment} {s s' : Bytes} :
    0xff :: frame.tail ++ s ≠ 0xff :: (segment.tail ++ s') := by
  intro h
  simp only [Frame.tail, Segment.tail, List.append_assoc, List.cons_append] at h
  obtain ⟨hcode, -⟩ := marker_inj (frame_code frame).2 segment.notFill h
  exact segment.notFrame (hcode ▸ frame.frame)

theorem frame_unique {frame frame' : Frame} {s s' : Bytes}
    (h : 0xff :: frame.tail ++ s = 0xff :: frame'.tail ++ s') : frame.dims = frame'.dims := by
  simp only [Frame.tail, List.append_assoc, List.cons_append] at h
  obtain ⟨-, h⟩ := marker_inj (frame_code frame).2 (frame_code frame').2 h
  obtain ⟨a, b, hab⟩ := exists_be16 (frame.components.length + 7 : Nat)
  obtain ⟨a', b', hab'⟩ := exists_be16 (frame'.components.length + 7 : Nat)
  rw [hab, hab', Frame.dimBytes, Frame.dimBytes] at h
  simp only [List.cons_append, List.nil_append, List.cons.injEq] at h
  obtain ⟨-, -, -, hh, hh', hw, hw', -⟩ := h
  rw [Frame.dims, Frame.dims, hh, hh', hw, hw']

/-- **The size of a JPEG file is determined by its bytes.** -/
theorem segments_unique {segments segments' : List Segment} {frame frame' : Frame} {s s' : Bytes}
    (h : segmentBytes segments ++ 0xff :: frame.tail ++ s =
      segmentBytes segments' ++ 0xff :: frame'.tail ++ s') : frame.dims = frame'.dims := by
  induction segments generalizing segments' with
  | nil =>
      cases segments' with
      | nil => exact frame_unique h
      | cons segment' segments' =>
          rw [segments_split] at h
          exact absurd h frame_ne_segment
  | cons segment segments ih =>
      cases segments' with
      | nil =>
          rw [segments_split] at h
          exact absurd h.symm frame_ne_segment
      | cons segment' segments' =>
          rw [segments_split, segments_split] at h
          simp only [Segment.tail, Segment.body, List.append_assoc, List.cons_append] at h
          obtain ⟨-, h⟩ := marker_inj segment.notFill segment'.notFill h
          have hskip := skipVariable_segment segment.fits
            (segmentBytes segments ++ 0xff :: (frame.tail ++ s))
          rw [h, skipVariable_segment segment'.fits] at hskip
          have hrest : segmentBytes segments ++ 0xff :: frame.tail ++ s =
              segmentBytes segments' ++ 0xff :: frame'.tail ++ s' := by
            simp only [List.append_assoc, List.cons_append]
            exact (Option.some.inj hskip).symm
          exact ih hrest

theorem jpeg_unique {jpeg jpeg' : Jpeg} (h : jpeg.bytes = jpeg'.bytes) :
    jpeg'.frame.dims = jpeg.frame.dims :=
  (segments_unique (List.cons.inj (List.cons.inj h).2).2).symm

/-! ## `ImgStat` -/

/-- What the routine of a type finds. -/
def sizeOf (type : ImgType) (file : Bytes) (stack : Dims) : Dims :=
  match type with
  | .jpeg => (jpegSize ((seek file 0).drop 3)).getD stack
  | .gif => (gifSize file).getD stack
  | .bmp => (bmpSize file).getD stack
  | .art => (0, 0)

/-- The first two bytes are read as they are. -/
theorem seek_two {a b : UInt8} (ha : a ≠ 13) (hb : b ≠ 13) (s : Bytes) :
    (seek (a :: b :: s) 0).take 3 = a :: b :: (eol false s).take 1 := by
  show (eol false (a :: b :: s)).take 3 = _
  rw [eol_cons_of_ne ha, eol_cons_of_ne hb]
  rfl

theorem getImgType_eq {type : ImgType} {file : Bytes} (h : signature file = some type) :
    getImgType (seek file 0) = if file.length < 3 then none else some type := by
  unfold signature at h
  split_ifs at h with hjpeg hgif hbmp
  · obtain ⟨s, rfl⟩ := hjpeg
    obtain rfl := Option.some.inj h
    unfold getImgType
    rw [List.cons_append, List.cons_append, seek_two (by simp) (by simp)]
    cases s with
    | nil => rfl
    | cons b s =>
        rw [List.nil_append, eol_cons, if_neg (by simp)]
        rfl
  · obtain ⟨s, rfl⟩ := hgif
    obtain rfl := Option.some.inj h
    have hlength : ¬(ascii "GIF" ++ s).length < 3 := by
      have hthree : (ascii "GIF").length = 3 := rfl
      rw [List.length_append]
      omega
    rw [if_neg hlength]
    have htake : (seek (ascii "GIF" ++ s) 0).take 3 = [71, 73, 70] := by
      show (seek (71 :: 73 :: 70 :: s) 0).take 3 = _
      rw [seek_two (by simp) (by simp), eol_cons_of_ne (by simp)]
      rfl
    rw [getImgType, htake]
    rfl
  · obtain ⟨s, rfl⟩ := hbmp
    obtain rfl := Option.some.inj h
    have htake : (seek (ascii "BM" ++ s) 0).take 3 = 66 :: 77 :: (eol false s).take 1 := by
      show (seek (66 :: 77 :: s) 0).take 3 = _
      rw [seek_two (by simp) (by simp)]
    rw [getImgType, htake]
    cases s with
    | nil => rfl
    | cons b s =>
        rw [eol_cons, if_neg (by simp [ascii])]
        rfl

/-- **A file with the first bytes of a type loads as one of the type from three bytes on, whatever
its routine finds.** -/
theorem loadImage_eq {type : ImgType} {file : Bytes} (h : signature file = some type)
    (stack : Dims) :
    loadImage file stack =
      if file.length < 3 then none else some (type, sizeOf type file stack) := by
  show (getImgType (seek file 0)).map (fun type => (type, sizeOf type file stack)) = _
  rw [getImgType_eq h]
  split_ifs
  · rfl
  · rfl

/-- A well-formed file has three bytes. -/
theorem length_of_hasDims {type : ImgType} {file : Bytes} {dims : Dims}
    (h : HasDims type file dims) :
    ¬file.length < 3 := by
  cases type with
  | jpeg =>
      obtain ⟨jpeg, rfl, -⟩ := h
      show ¬(segmentBytes jpeg.segments ++ 0xff :: jpeg.frame.tail ++ _).length + 1 + 1 < 3
      rw [List.length_append, List.length_append, List.length_cons]
      omega
  | gif =>
      change gifDims file = some dims at h
      unfold gifDims at h
      split at h
      · omega
      · exact nomatch h
  | bmp =>
      change bmpDims file = some dims at h
      unfold bmpDims at h
      split at h
      · omega
      · exact nomatch h
  | art => exact h.elim

/-- The routine of the type finds the size. -/
theorem sizeOf_of_kept {type : ImgType} {file : Bytes} {dims : Dims} (h : HasDims type file dims)
    (hkept : Kept type file) (stack : Dims) : sizeOf type file stack = dims := by
  rcases hkept with ⟨hnone, -⟩ | ⟨-, hkept⟩
  · exact absurd h (hnone dims)
  · cases type with
    | jpeg =>
        obtain ⟨jpeg, rfl, rfl⟩ := h
        obtain ⟨jpeg', hbytes, hstep⟩ := hkept
        show (jpegSize ((seek jpeg.bytes 0).drop 3)).getD stack = _
        rw [hbytes, jpegSize_inStep hstep, jpeg_unique hbytes]
        rfl
    | gif =>
        show (gifSize file).getD stack = _
        rw [(gifSize_iff h).mpr hkept]
        rfl
    | bmp =>
        show (bmpSize file).getD stack = _
        rw [(bmpSize_iff h).mpr hkept]
        rfl
    | art => exact h.elim

/-- **A file that is kept loads as expected, whatever is on the stack.** -/
theorem loads_of_kept {type : ImgType} {file : Bytes} (htype : signature file = some type)
    (hkept : Kept type file) (stack : Dims) : Loads type file (loadImage file stack) := by
  rw [loadImage_eq htype]
  constructor
  · intro dims h
    rw [if_neg (length_of_hasDims h), sizeOf_of_kept h hkept]
  · intro hnone
    rcases hkept with ⟨-, hlength⟩ | ⟨⟨dims, h⟩, -⟩
    · exact if_pos hlength
    · exact absurd h (hnone dims)

/-- What is found whatever is on the stack does not come from there. -/
theorem eq_some_of_getD {size : Option Dims} {dims : Dims} (h : ∀ stack, size.getD stack = dims) :
    size = some dims := by
  cases size with
  | none =>
      have h0 := h (0, 0)
      have h1 := h (1, 0)
      exact absurd (h0.trans h1.symm) (by simp)
  | some size => exact congrArg some (h (0, 0))

/-- **A file that loads as expected, whatever is on the stack, is kept**, if it is no well-formed
JPEG file. -/
theorem kept_of_loads {type : ImgType} {file : Bytes} (htype : signature file = some type)
    (hjpeg : type = .jpeg → ∀ dims, ¬HasDims .jpeg file dims)
    (hloads : ∀ stack, Loads type file (loadImage file stack)) : Kept type file := by
  have hload : ∀ dims, HasDims type file dims → ∀ stack, sizeOf type file stack = dims := by
    intro dims h stack
    have heq := (hloads stack).1 dims h
    rw [loadImage_eq htype, if_neg (length_of_hasDims h)] at heq
    exact (Prod.mk.inj (Option.some.inj heq)).2
  by_cases hnone : ∀ dims, ¬HasDims type file dims
  · refine Or.inl ⟨hnone, ?_⟩
    have heq := (hloads (0, 0)).2 hnone
    rw [loadImage_eq htype] at heq
    by_contra hlength
    rw [if_neg hlength] at heq
    exact nomatch heq
  · obtain ⟨dims, h⟩ := not_forall_not.mp hnone
    refine Or.inr ⟨⟨dims, h⟩, ?_⟩
    cases type with
    | jpeg => exact absurd h (hjpeg rfl dims)
    | gif => exact (gifSize_iff h).mp (eq_some_of_getD (hload dims h))
    | bmp => exact (bmpSize_iff h).mp (eq_some_of_getD (hload dims h))
    | art => trivial

/-- The file is not in the cache, or what is there is too old. -/
def State.Unloaded (s : State) (st : FileStat) : Prop :=
  ∀ value, s.cache.lookup st.key = some value →
    ∃ stPtr, value = some stPtr ∧ (stPtr.mtime ≠ st.mtime ∨ stPtr.size ≠ st.size)

/-- What a thread that has called `stat` reports when it loads a file by itself, and the value the
cache has of the file after it. -/
def Reports (s : State) (i : Nat) (st : FileStat) (loaded : Option (ImgType × Int × Int))
    (value : Option Stat) : Prop :=
  ∃ s₁ s₂, run State.next s [.enter i, .load i loaded] = some s₁ ∧
    s₁.pcs i = .loaded st.key value ∧ s₁.next (.publish i) = some s₂ ∧
      s₂.cache.lookup st.key = value.map some

/-- The value of what was loaded. -/
def Stat.of (st : FileStat) (loaded : ImgType × Int × Int) : Stat :=
  ⟨st.mtime, st.size, loaded.1, loaded.2.1, loaded.2.2⟩

theorem Stat.of_injective (st : FileStat) : Function.Injective (Stat.of st) := by
  intro ⟨type, w, h⟩ ⟨type', w', h'⟩ heq
  obtain ⟨-, -, rfl, rfl, rfl⟩ := Stat.mk.inj heq
  rfl

/-- The first section of `ImgStat`, for a file that is to be loaded. -/
theorem next_enter {s : State} {i : Nat} {st : FileStat} (hpc : s.pcs i = .stated st)
    (hlock : s.lock = none) (hcache : s.Unloaded st) :
    ∃ s', s.next (.enter i) = some s' ∧ s'.pcs i = .loading st ∧ s'.lock = none := by
  have hnext : s.next (.enter i) = some (s.enter i st) := by
    rw [State.next, hpc]
    exact if_pos hlock
  refine ⟨_, hnext, ?_⟩
  rw [State.enter]
  cases hlookup : s.cache.lookup st.key with
  | none => exact ⟨Function.update_self _ _ _, hlock⟩
  | some value =>
      obtain ⟨stPtr, rfl, hold⟩ := hcache value hlookup
      show (if _ then _ else _ : State).pcs i = _ ∧ (if _ then _ else _ : State).lock = none
      rw [if_pos hold]
      exact ⟨Function.update_self _ _ _, rfl⟩

/-- **A thread reports and caches what it loads.** -/
theorem reports_iff {s : State} {i : Nat} {st : FileStat} (hpc : s.pcs i = .stated st)
    (hlock : s.lock = none) (hcache : s.Unloaded st) (loaded : Option (ImgType × Int × Int))
    (value : Option Stat) : Reports s i st loaded value ↔ value = loaded.map (Stat.of st) := by
  obtain ⟨s₀, henter, hloading, hfree⟩ := next_enter hpc hlock hcache
  have hrun : run State.next s [.enter i, .load i loaded] =
      some (s₀.goto i (.loaded st.key (loaded.map (Stat.of st)))) := by
    rw [run, henter]
    show (s₀.next (.load i loaded)).bind some = _
    rw [State.next, hloading]
    rfl
  have hpcs : (s₀.goto i (.loaded st.key (loaded.map (Stat.of st)))).pcs i =
      .loaded st.key (loaded.map (Stat.of st)) := Function.update_self _ _ _
  constructor
  · rintro ⟨s₁, s₂, hrun', hvalue, -, -⟩
    obtain rfl := Option.some.inj (hrun.symm.trans hrun')
    exact (Pc.loaded.inj (hpcs.symm.trans hvalue)).2.symm
  · rintro rfl
    refine ⟨_, (s₀.goto i (.loaded st.key (loaded.map (Stat.of st)))).publish i st.key
      (loaded.map (Stat.of st)), hrun, hpcs, ?_, ?_⟩
    · rw [State.next, hpcs]
      exact if_pos hfree
    · cases loaded with
      | none => exact AList.lookup_erase _ _
      | some loaded => exact AList.lookup_insert _

/-- What is expected of a report on a file: its size, or none when the file is not well-formed. -/
def Reported (type : ImgType) (file : Bytes) (st : FileStat) (value : Option Stat) : Prop :=
  (∀ dims, HasDims type file dims → value = some ⟨st.mtime, st.size, type, dims.1, dims.2⟩) ∧
    ((∀ dims, ¬HasDims type file dims) → value = none)

theorem reported_map_iff {type : ImgType} {file : Bytes} {st : FileStat}
    {loaded : Option (ImgType × Int × Int)} :
    Reported type file st (loaded.map (Stat.of st)) ↔ Loads type file loaded := by
  have hsome : ∀ dims : Dims, loaded.map (Stat.of st) =
      some ⟨st.mtime, st.size, type, dims.1, dims.2⟩ ↔ loaded = some (type, dims) :=
    fun dims => (Option.map_injective (Stat.of_injective st)).eq_iff (b := some (type, dims))
  unfold Reported Loads
  simp only [hsome, Option.map_eq_none_iff]

/-- **A file that is kept is reported as expected, whatever is on the stack. A file that is reported
so, and is no well-formed JPEG file, is kept.** -/
theorem imgStat_dimensions {type : ImgType} {file : Bytes} {s : State} {i : Nat} {st : FileStat}
    (htype : signature file = some type) (hpc : s.pcs i = .stated st) (hlock : s.lock = none)
    (hcache : s.Unloaded st) :
    (Kept type file → ∀ stack, ∃ value, Reports s i st (loadImage file stack) value ∧
      Reported type file st value) ∧
    ((type = .jpeg → ∀ dims, ¬HasDims .jpeg file dims) →
      (∀ stack, ∃ value, Reports s i st (loadImage file stack) value ∧
        Reported type file st value) → Kept type file) := by
  simp only [reports_iff hpc hlock hcache, exists_eq_left, reported_map_iff]
  exact ⟨loads_of_kept htype, kept_of_loads htype⟩

/-! ## Files -/

theorem app0_isSegment :
    (0xe0 : UInt8) ≠ 0 ∧ (0xe0 : UInt8) ≠ 0xff ∧ ¬IsFrame 0xe0 ∧ ¬IsAlone 0xe0 ∧
    (0xe0 : UInt8) ≠ 0xda := by decide

theorem sof0_isFrame : IsFrame 0xc0 := by decide

/-- An `APP0` segment with two bytes. -/
def app0 : Segment where
  fill := 0
  code := 0xe0
  content := [13, 10]
  notZero := app0_isSegment.1
  notFill := app0_isSegment.2.1
  notFrame := app0_isSegment.2.2.1
  notAlone := app0_isSegment.2.2.2.1
  notScan := app0_isSegment.2.2.2.2
  fits := Nat.lt_of_sub_eq_succ rfl

/-- The frame header of an image of 32 columns and 16 lines. -/
def sof0 : Frame where
  fill := 0
  code := 0xc0
  precision := 8
  height := (0, 16)
  width := (0, 32)
  components := [1, 1, 0x11, 0]
  frame := sof0_isFrame
  fits := Nat.lt_of_sub_eq_succ rfl

def jpegFile : Jpeg := ⟨[app0], sof0, [0xff, 0xd9]⟩

/-- A GIF file of 13 columns and one line. -/
def gif13 : Bytes := [71, 73, 70, 56, 57, 97, 13, 0, 1, 0, 0, 0, 0]

/-- What `stat` finds. -/
def fileStat : FileStat := ⟨⟨1, 2⟩, 3, 13⟩

/-- A thread that has called `stat`. -/
def oneCall : State := State.empty.goto 0 (.stated fileStat)

theorem oneCall_unloaded : oneCall.Unloaded fileStat := fun _ h => nomatch h

theorem jpegFile_inStep : InStep jpegFile :=
  Or.inr ⟨rfl, by decide, ⟨by decide, fun _ h => absurd h List.not_mem_nil, by decide⟩⟩

theorem imgStat_dimensions_jpeg : ∃ value,
    Reports oneCall 0 fileStat (loadImage jpegFile.bytes (0, 0)) value ∧
      Reported .jpeg jpegFile.bytes fileStat value := by
  have htype : signature jpegFile.bytes = some .jpeg := rfl
  have hpc : oneCall.pcs 0 = .stated fileStat := rfl
  have hdims : HasDims .jpeg jpegFile.bytes (32, 16) := ⟨jpegFile, rfl, rfl⟩
  exact (imgStat_dimensions htype hpc rfl oneCall_unloaded).1
    (Or.inr ⟨⟨_, hdims⟩, jpegFile, rfl, jpegFile_inStep⟩) (0, 0)

/-- The width of 13 is reported as 10. -/
theorem imgStat_carriage_return : HasDims .gif gif13 (13, 1) ∧
    Reports oneCall 0 fileStat (loadImage gif13 (0, 0)) (some ⟨3, 13, .gif, 10, 1⟩) ∧
    ¬Reported .gif gif13 fileStat (some ⟨3, 13, .gif, 10, 1⟩) := by
  have hdims : HasDims .gif gif13 (13, 1) := rfl
  refine ⟨hdims, (reports_iff rfl rfl oneCall_unloaded _ _).mpr rfl, fun h => ?_⟩
  have hvalue := h.1 _ hdims
  exact absurd hvalue (by decide)

end Nsdci.Img
