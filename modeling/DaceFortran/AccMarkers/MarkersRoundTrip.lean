/-
# Lines joined and split, and marker calls

Unbroken lines joined by line feeds are split into the same lines, but for an empty last one;
the number of a marker call is read back.
-/
import DaceFortran.Lib.Decimal
import Mathlib.Data.List.TakeWhile
import DaceFortran.Lib.AssocLists
import DaceFortran.AccMarkers.Encoding

open List

namespace Preprocess.AccMarkers

/-! ## Lines joined and split -/

/-- A line has no line boundary in it. -/
def Unbroken (line : Line) : Prop := ∀ c ∈ line, ¬ isBoundary c

theorem splitlinesFrom_line {line : Line} (h : Unbroken line) (acc : Line) (r : Text) :
    splitlinesFrom false acc (line ++ '\n' :: r) = (acc.reverse ++ line) :: splitlinesFrom false
    [] r := by
  induction line generalizing acc with
  | nil =>
    rw [nil_append, append_nil]
    rfl
  | cons c line ih =>
    have hc : ¬ isBoundary c := h c mem_cons_self
    rw [cons_append, splitlinesFrom, if_neg hc, ih fun d hd => h d (mem_cons_of_mem c hd)]
    simp

theorem splitlinesFrom_last {line : Line} (h : Unbroken line) (acc : Line) :
    splitlinesFrom false acc line = if acc.reverse ++ line = [] then
    [] else [acc.reverse ++ line] := by
  induction line generalizing acc with
  | nil => simp [splitlinesFrom]
  | cons c line ih =>
    have hc : ¬ isBoundary c := h c mem_cons_self
    rw [splitlinesFrom, if_neg hc, ih fun d hd => h d (mem_cons_of_mem c hd)]
    simp

theorem joinLines_cons_cons (l l' : Line) (ls : List Line) :
    joinLines (l :: l' :: ls) = l ++ '\n' :: joinLines (l' :: ls) := by
  unfold joinLines
  rw [intercalate_cons_cons]
  simp

@[simp] theorem joinLines_singleton (l : Line) : joinLines [l] = l := by
  simp [joinLines, List.intercalate]

@[simp] theorem joinLines_nil : joinLines [] = [] := rfl

variable {ls : List Line} {text : Text}

/-- Lines that are all ended by a line feed. -/
theorem splitlines_joinLines_feed (h : ∀ l ∈ ls, Unbroken l) (hne : ls ≠ []) :
    splitlines (joinLines ls ++ ['\n']) = ls := by
  induction ls with
  | nil => exact absurd rfl hne
  | cons l ls ih =>
    have hl := h l mem_cons_self
    cases ls with
    | nil =>
      rw [joinLines_singleton]
      exact splitlinesFrom_line hl [] []
    | cons l' ls =>
      rw [joinLines_cons_cons, append_assoc, cons_append]
      show splitlinesFrom false [] _ = _
      rw [splitlinesFrom_line hl]
      exact congrArg (l :: ·) (ih (fun m hm => h m (mem_cons_of_mem l hm)) (cons_ne_nil l' ls))

/-- Lines the last of which no line feed ends: it is lost if it is empty. -/
theorem splitlines_joinLines (h : ∀ l ∈ ls, Unbroken l) :
    splitlines (joinLines ls) = if ls.getLast? = some [] then ls.dropLast else ls := by
  induction ls with
  | nil => rfl
  | cons l ls ih =>
    have hl := h l mem_cons_self
    cases ls with
    | nil =>
      rw [joinLines_singleton]
      show splitlinesFrom false [] l = _
      rw [splitlinesFrom_last hl]
      cases l with
      | nil => rfl
      | cons c l => rfl
    | cons l' ls =>
      rw [joinLines_cons_cons]
      show splitlinesFrom false [] _ = _
      rw [splitlinesFrom_line hl]
      have hrest := ih fun m hm => h m (mem_cons_of_mem l hm)
      unfold splitlines at hrest
      rw [hrest, List.getLast?_cons_cons]
      split
      · rfl
      · rfl

variable {acc l indent : Line}

theorem unbroken_of_mem_splitlinesFrom {cr : Bool} (hacc : Unbroken acc)
    (hl : l ∈ splitlinesFrom cr acc text) : Unbroken l := by
  have hrev : ∀ {a : Line}, Unbroken a → Unbroken a.reverse :=
    fun ha c hc => ha c (mem_reverse.1 hc)
  induction text generalizing cr acc with
  | nil =>
    rw [splitlinesFrom] at hl
    split at hl
    · cases hl
    · rw [mem_singleton.1 hl]
      exact hrev hacc
  | cons c r ih =>
    have hnil : Unbroken [] := fun d hd => absurd hd not_mem_nil
    rw [splitlinesFrom] at hl
    split at hl
    · split at hl
      · exact ih hnil hl
      · rcases mem_cons.1 hl with rfl | hl
        · exact hrev hacc
        · exact ih hnil hl
    · next hc =>
      refine ih ?_ hl
      intro d hd
      rcases mem_cons.1 hd with rfl | hd
      · exact hc
      · exact hacc d hd

/-- The lines of a text are unbroken. -/
theorem unbroken_of_mem_splitlines (hl : l ∈ splitlines text) : Unbroken l :=
  unbroken_of_mem_splitlinesFrom (fun _ hd => absurd hd not_mem_nil) hl

theorem splitlinesFrom_ne_nil (text : Text) (h : acc ≠ []) :
    splitlinesFrom false acc text ≠ [] := by
  induction text generalizing acc with
  | nil =>
    rw [splitlinesFrom, if_neg h]
    exact cons_ne_nil _ _
  | cons c r ih =>
    rw [splitlinesFrom]
    split
    · exact cons_ne_nil _ _
    · exact ih (cons_ne_nil c acc)

theorem splitlines_ne_nil (h : text ≠ []) : splitlines text ≠ [] := by
  cases text with
  | nil => exact absurd rfl h
  | cons c r =>
    unfold splitlines
    rw [splitlinesFrom]
    split
    · exact cons_ne_nil _ _
    · exact splitlinesFrom_ne_nil r (cons_ne_nil c [])

/-- Joined lines end in a line feed only if the last one is empty. -/
theorem getLast?_joinLines (h : ∀ l ∈ ls, Unbroken l)
    (hfeed : (joinLines ls).getLast? = some '\n') :
    ls.getLast? = some [] := by
  induction ls with
  | nil => cases hfeed
  | cons l ls ih =>
    cases ls with
    | nil =>
      rw [joinLines_singleton] at hfeed
      exact absurd rfl (h l mem_cons_self '\n' (mem_of_getLast? hfeed))
    | cons l' ls =>
      rw [List.getLast?_cons_cons]
      by_cases hnil : joinLines (l' :: ls) = []
      · have hlines := splitlines_joinLines fun m hm => h m (mem_cons_of_mem l hm)
        rw [hnil] at hlines
        split at hlines
        · assumption
        · cases hlines
      · apply ih fun m hm => h m (mem_cons_of_mem l hm)
        obtain ⟨a, t, ht⟩ := exists_cons_of_ne_nil hnil
        rw [joinLines_cons_cons, List.getLast?_append, ht, List.getLast?_cons_cons] at hfeed
        rw [ht]
        rwa [List.getLast?_eq_some_getLast (cons_ne_nil a t), Option.some_or] at hfeed

/-! ## Marker calls -/

theorem digitsValue_toString (n : ℕ) : digitsValue (toString n).toList = n := by
  show digitsValue n.repr.toList = n
  rw [Nat.toList_repr]
  have h := Nat.ofDigitChars_ten_toDigits (n := n)
  rwa [Nat.ofDigitChars_eq_foldl] at h

/-- The number of a marker call is read back. -/
theorem markerNumber_markerCall (hindent : ∀ c ∈ indent, isSpace c) (n : ℕ) :
    markerNumber (markerCall indent n) = some n := by
  have hcall : markerCall indent n =
      indent ++ ("CALL ".toList ++ (markerStem ++ (toString n).toList)) := by
    simp [markerCall]
  have hskip : skipSpace (markerCall indent n) = "CALL ".toList ++
      (markerStem ++ (toString n).toList) := by
    rw [hcall, skipSpace, dropWhile_append_of_pos hindent]
    rfl
  have hkey : keyword "call".toList ("CALL ".toList ++ (markerStem ++ (toString n).toList)) =
      some (' ' :: (markerStem ++ (toString n).toList)) := rfl
  have hstem : keyword markerStem (skipSpace (' ' :: (markerStem ++ (toString n).toList))) =
      some (toString n).toList := rfl
  have hdigits : markerDigits (toString n).toList = some n := by
    have hall : ∀ c ∈ (toString n).toList, c.isDigit :=
      fun c hc => Decimal.isDigit_of_mem_toString hc
    have htake : (toString n).toList.takeWhile Char.isDigit = (toString n).toList :=
      takeWhile_eq_self_iff.2 hall
    have hdrop : (toString n).toList.dropWhile Char.isDigit = [] := dropWhile_eq_nil_iff.2 hall
    unfold markerDigits
    simp only
    rw [htake, hdrop, if_pos ⟨Decimal.toString_ne_nil n, rfl⟩, digitsValue_toString]
  have hblank : (' ' :: (markerStem ++ (toString n).toList)).head?.any isSpace = true := rfl
  unfold markerNumber
  rw [hskip, hkey, Option.bind_some, if_pos hblank, hstem, Option.bind_some, hdigits]

theorem unbroken_markerCall (hindent : Unbroken indent) (n : ℕ) :
    Unbroken (markerCall indent n) := by
  have hfixed : ("CALL ".toList ++ markerStem).all fun c => !isBoundary c := by decide
  intro c hc
  rw [markerCall, append_assoc indent] at hc
  rcases mem_append.1 hc with hc | hc
  · rcases mem_append.1 hc with hc | hc
    · exact hindent c hc
    · have := all_eq_true.1 hfixed c hc
      rwa [Bool.not_eq_true', ← Bool.not_eq_true] at this
  · have hdigit := Char.isDigit_iff_toNat.1 (Decimal.isDigit_of_mem_toString hc)
    rw [show '0'.toNat = 48 from rfl, show '9'.toNat = 57 from rfl] at hdigit
    intro hb
    have hmem := of_decide_eq_true hb
    simp only [mem_cons, not_mem_nil, or_false] at hmem
    omega

end Preprocess.AccMarkers

/-
# The round trip of directive markers

The decoded text has the lines of the source, but for an empty last line that no line feed
ends; the markers stand where executable statements may if the directives do.
-/

namespace Preprocess.AccMarkers

/-! ## Pieces and their lines -/

/-- What a piece of an encoding is: lines that are kept, the last one empty at most, or the sentinel
lines of a directive. -/
structure Piece.Good (p : Piece) : Prop where
  source_ne : p.source ≠ []
  encoded_ne : p.encoded ≠ []
  last : p.encoded.getLast? = some [] ↔ p.source.getLast? = some []

variable {line : Line}

variable {rest : List Line} {F : SourceFile}

theorem isSentinel_continuations {l : Line} (h : l ∈ continuations line rest) :
    isSentinel l := by
  induction rest generalizing line with
  | nil => cases h
  | cons next rest ih =>
    rw [continuations] at h
    split at h
    · next hnext =>
      rcases mem_cons.1 h with rfl | h
      · exact (Bool.and_eq_true _ _ ▸ hnext).2
      · exact ih h
    · cases h

theorem good_kept {lines : List Line} (h : lines ≠ []) : (Piece.kept lines).Good := ⟨h, h, Iff.rfl⟩

theorem markerCall_ne_nil (indent : Line) (n : ℕ) : markerCall indent n ≠ [] :=
  append_ne_nil_of_right_ne_nil _ (Decimal.toString_ne_nil n)

theorem good_marker (h : isSentinel line) (n : ℕ) :
    (Piece.marker n (line :: continuations line rest)).Good := by
  have hempty : isSentinel [] = false := by decide
  refine ⟨cons_ne_nil _ _, cons_ne_nil _ _, ?_⟩
  constructor
  · intro hlast
    exact absurd (Option.some.inj hlast) (markerCall_ne_nil _ n)
  · intro hlast
    have hmem : [] ∈ line :: continuations line rest := mem_of_getLast? hlast
    have hsentinel : isSentinel [] := by
      rcases mem_cons.1 hmem with hline | hmem
      · rw [hline]
        exact h
      · exact isSentinel_continuations hmem
    rw [hempty] at hsentinel
    cases hsentinel

theorem encodeFrom_good (skip counter : ℕ) (lines : List Line) :
    ∀ p ∈ encodeFrom skip counter lines, p.Good := by
  induction lines generalizing skip counter with
  | nil =>
    intro p hp
    cases skip with
    | zero => cases hp
    | succ skip => cases hp
  | cons line rest ih =>
    cases skip with
    | succ skip => exact ih skip counter
    | zero =>
      rw [encodeFrom]
      split
      · next hline =>
        split
        · intro p hp
          rcases mem_cons.1 hp with rfl | hp
          · exact good_kept (cons_ne_nil _ _)
          · exact ih _ counter p hp
        · intro p hp
          rcases mem_cons.1 hp with rfl | hp
          · exact good_marker hline counter
          · exact ih _ (counter + 1) p hp
      · intro p hp
        rcases mem_cons.1 hp with rfl | hp
        · exact good_kept (cons_ne_nil _ _)
        · exact ih 0 counter p hp

variable {pieces : List Piece} {counter : ℕ} {files : List SourceFile}

theorem flatMap_ne_nil {f : Piece → List Line} (hf : ∀ p ∈ pieces, f p ≠ []) (h : pieces ≠ []) :
    pieces.flatMap f ≠ [] := by
  cases pieces with
  | nil => exact absurd rfl h
  | cons p pieces =>
    rw [flatMap_cons]
    exact append_ne_nil_of_left_ne_nil (hf p mem_cons_self) _

/-- The encoded lines end in an empty one if and only if the source's do. -/
theorem getLast?_encoded (h : ∀ p ∈ pieces, p.Good) :
    (pieces.flatMap Piece.encoded).getLast? = some [] ↔
      (pieces.flatMap Piece.source).getLast? = some [] := by
  induction pieces with
  | nil => exact Iff.rfl
  | cons p pieces ih =>
    have hrest : ∀ q ∈ pieces, q.Good := fun q hq => h q (mem_cons_of_mem p hq)
    rw [flatMap_cons, flatMap_cons, List.getLast?_append, List.getLast?_append]
    cases pieces with
    | nil => exact (h p mem_cons_self).last
    | cons q pieces =>
      have hsource := flatMap_ne_nil (fun p hp => (hrest p hp).source_ne) (cons_ne_nil q pieces)
      have hencoded := flatMap_ne_nil (fun p hp => (hrest p hp).encoded_ne) (cons_ne_nil q pieces)
      rw [List.getLast?_eq_some_getLast hsource, List.getLast?_eq_some_getLast hencoded,
        Option.some_or, Option.some_or,
        ← List.getLast?_eq_some_getLast hsource, ← List.getLast?_eq_some_getLast hencoded]
      exact ih hrest

/-! ## Decoding -/

variable {table : List (ℕ × List Line)}

theorem decodeLine_of_none (h : markerNumber line = none) : decodeLine table line = [line] := by
  rw [decodeLine, h]
  rfl

/-- The encoded lines of pieces are decoded to their source. -/
theorem flatMap_decodeLine (hmark : ∀ l ∈ pieces.flatMap Piece.source, markerNumber l = none)
    (htable : ∀ n block, Piece.marker n block ∈ pieces → table.lookup n = some block) :
    (pieces.flatMap Piece.encoded).flatMap (decodeLine table) = pieces.flatMap Piece.source := by
  induction pieces with
  | nil => rfl
  | cons p pieces ih =>
    rw [flatMap_cons, flatMap_cons, flatMap_append, ih]
    · congr 1
      cases p with
      | kept lines =>
        have hlines : ∀ l ∈ lines, decodeLine table l = [l] :=
          fun l hl => decodeLine_of_none (hmark l (mem_flatMap_of_mem mem_cons_self hl))
        show lines.flatMap (decodeLine table) = lines
        rw [flatMap_congr hlines]
        exact flatMap_singleton' lines
      | marker n block =>
        have hindent : ∀ c ∈ (block.headD []).takeWhile isSpace, isSpace c :=
          fun c hc => mem_takeWhile_imp hc
        have hcall := markerNumber_markerCall hindent n
        show [_].flatMap (decodeLine table) = block
        rw [flatMap_singleton, decodeLine, hcall, Option.bind_some, htable n block mem_cons_self]
        rfl
    · intro l hl
      apply hmark l
      rw [flatMap_cons]
      exact mem_append_right p.source hl
    · exact fun n block hp => htable n block (mem_cons_of_mem p hp)

theorem unbroken_encoded (h : ∀ l ∈ pieces.flatMap Piece.source, Unbroken l) :
    ∀ l ∈ pieces.flatMap Piece.encoded, Unbroken l := by
  intro l hl
  obtain ⟨p, hp, hlp⟩ := mem_flatMap.1 hl
  cases p with
  | kept lines => exact h l (mem_flatMap_of_mem hp hlp)
  | marker n block =>
    rw [mem_singleton.1 hlp]
    apply unbroken_markerCall
    intro c hc
    cases block with
    | nil => cases hc
    | cons line block =>
      exact h line (mem_flatMap_of_mem hp mem_cons_self) c (takeWhile_subset _ hc)

/-! ## One file -/

/-- Fewer lines than before do not come back as the lines before. -/
theorem splitlines_rejoin_ne {text : Text} {ls : List Line} (h : ∀ l ∈ ls, Unbroken l)
    (hne : ls = [] → text.getLast? ≠ some '\n') : splitlines (rejoin text ls) ≠ ls ++ [[]] := by
  intro heq
  have hlength := congrArg List.length heq
  rw [length_append, length_singleton] at hlength
  unfold rejoin at hlength
  by_cases hfeed : text.getLast? = some '\n'
  · rw [if_pos hfeed, splitlines_joinLines_feed h fun hnil => hne hnil hfeed] at hlength
    omega
  · rw [if_neg hfeed, append_nil, splitlines_joinLines h] at hlength
    split at hlength
    · rw [length_dropLast] at hlength
      omega
    · omega

/-- **The lines of one source come back** if and only if its last line is ended by a line feed or
not empty. -/
theorem decode_file (hmark : ∀ l ∈ splitlines F.text, markerNumber l = none)
    (htable : ∀ n block, Piece.marker n block ∈ encodeFrom 0 counter (splitlines F.text) →
      table.lookup n = some block) :
    splitlines (decodeAccDirectives
      (rejoin F.text ((encodeFrom 0 counter (splitlines F.text)).flatMap Piece.encoded)) table) =
        splitlines F.text ↔
      F.EndsInLine := by
  have hsource := encodeFrom_source 0 counter (splitlines F.text)
  have hgood := encodeFrom_good 0 counter (splitlines F.text)
  have hlast := getLast?_encoded hgood
  generalize hpieces : encodeFrom 0 counter (splitlines F.text) = pieces at *
  rw [drop_zero] at hsource
  have hunbroken : ∀ l ∈ splitlines F.text, Unbroken l := fun l hl => unbroken_of_mem_splitlines hl
  have hout := unbroken_encoded (hsource ▸ hunbroken)
  have hdecode := flatMap_decodeLine (hsource ▸ hmark) htable
  rw [hsource] at hlast hdecode
  unfold decodeAccDirectives
  by_cases hfeed : F.text.getLast? = some '\n'
  · -- every line is ended by a line feed
    have hne : splitlines F.text ≠ [] := by
      apply splitlines_ne_nil
      rintro hnil
      rw [hnil] at hfeed
      cases hfeed
    have houtne : pieces.flatMap Piece.encoded ≠ [] := by
      apply flatMap_ne_nil fun p hp => (hgood p hp).encoded_ne
      rintro rfl
      exact hne hsource.symm
    have henc : rejoin F.text (pieces.flatMap Piece.encoded) =
        joinLines (pieces.flatMap Piece.encoded) ++ ['\n'] := by
      rw [rejoin, if_pos hfeed]
    rw [henc, splitlines_joinLines_feed hout houtne, hdecode, rejoin, if_pos List.getLast?_concat,
      splitlines_joinLines_feed hunbroken hne]
    exact ⟨fun _ => Or.inl hfeed, fun _ => rfl⟩
  · have henc : rejoin F.text (pieces.flatMap Piece.encoded) =
        joinLines (pieces.flatMap Piece.encoded) := by
      rw [rejoin, if_neg hfeed, append_nil]
    rw [henc, splitlines_joinLines hout]
    by_cases hempty : (splitlines F.text).getLast? = some []
    · -- the last line is lost
      rw [if_pos (hlast.2 hempty)]
      refine ⟨fun h => absurd h ?_, fun h => absurd h ?_⟩
      · obtain ⟨out, hsplit⟩ := List.getLast?_eq_some_iff.1 (hlast.2 hempty)
        have hblank : decodeLine table [] = [[]] := decodeLine_of_none (by decide)
        rw [hsplit, flatMap_append, flatMap_singleton, hblank] at hdecode
        rw [hsplit, dropLast_concat, ← hdecode]
        apply splitlines_rejoin_ne
        · intro l hl
          apply hunbroken l
          rw [← hdecode]
          exact mem_append_left _ hl
        · -- a single empty line is encoded as no text at all
          intro hnil
          rw [hnil, nil_append] at hdecode
          rw [← hdecode] at hpieces
          have hsingle : pieces = [.kept [[]]] := hpieces.symm
          rw [← hsplit, hsingle]
          decide
      · rintro (h | h)
        · exact hfeed h
        · exact h hempty
    · have houtlast : (pieces.flatMap Piece.encoded).getLast? ≠ some [] :=
        fun h => hempty (hlast.1 h)
      have hnofeed : (joinLines (pieces.flatMap Piece.encoded)).getLast? ≠ some '\n' :=
        fun h => houtlast (getLast?_joinLines hout h)
      rw [if_neg houtlast, hdecode, rejoin, if_neg hnofeed, append_nil,
        splitlines_joinLines hunbroken,
        if_neg hempty]
      exact ⟨fun _ => Or.inr hempty, fun _ => rfl⟩

/-! ## All files -/

theorem mem_filePlaces (counter : ℕ) (hF : F ∈ files) :
    ∃ c, (F, placesFrom 0 (encodeFrom 0 c (splitlines F.text))) ∈
      files.zip ((encodePieces counter (srcMap files)).map fun s => placesFrom 0 s.2.2) := by
  induction files generalizing counter with
  | nil => cases hF
  | cons G files ih =>
    rcases mem_cons.1 hF with rfl | hF
    · exact ⟨counter, mem_cons_self⟩
    · obtain ⟨c, hc⟩ := ih (counterAfter counter (encodeFrom 0 counter (splitlines G.text))) hF
      exact ⟨c, mem_cons_of_mem _ hc⟩

theorem of_mem_filePlaces {p : SourceFile × List (ℕ × ℕ)}
    (hp : p ∈ files.zip ((encodePieces counter (srcMap files)).map fun s => placesFrom 0 s.2.2)) :
    p.1 ∈ files ∧ ∃ c, p.2 = placesFrom 0 (encodeFrom 0 c (splitlines p.1.text)) := by
  induction files generalizing counter with
  | nil => cases hp
  | cons G files ih =>
    rcases mem_cons.1 hp with rfl | hp
    · exact ⟨mem_cons_self, counter, rfl⟩
    · obtain ⟨hmem, hc⟩ := ih hp
      exact ⟨mem_cons_of_mem G hmem, hc⟩

/-- The lines of the encoded files decode to those of the sources if and only if every file ends in
a line. -/
theorem decode_files
    (hmark : ∀ F ∈ files, ∀ l ∈ splitlines F.text, markerNumber l = none)
    (htable : ∀ s ∈ encodePieces counter (srcMap files), ∀ n block, Piece.marker n block ∈ s.2.2 →
      table.lookup n = some block) :
    ((encodePieces counter (srcMap files)).map fun s =>
      splitlines (decodeAccDirectives (rejoin s.2.1 (s.2.2.flatMap Piece.encoded)) table)) =
        (files.map fun F => splitlines F.text) ↔ ∀ F ∈ files, F.EndsInLine := by
  induction files generalizing counter with
  | nil => simp [srcMap, encodePieces]
  | cons F files ih =>
    have hfile := decode_file (F := F) (hmark F mem_cons_self) (htable _ mem_cons_self)
    have hrest := ih (fun G hG => hmark G (mem_cons_of_mem F hG))
      fun s hs => htable s (mem_cons_of_mem _ hs)
    show _ :: _ = _ :: _ ↔ _
    rw [List.cons.injEq, forall_mem_cons]
    exact and_congr hfile hrest

theorem filePlaces_numbers (files : List SourceFile) :
    ((files.zip ((encodePieces counter (srcMap files)).map fun s => placesFrom 0 s.2.2)).flatMap
      fun p => p.2.map Prod.snd) =
        (entries (encodePieces counter (srcMap files))).map Prod.fst := by
  induction files generalizing counter with
  | nil => rfl
  | cons F files ih =>
    show (placesFrom 0 _).map Prod.snd ++ _ =
      (List.filterMap Piece.entry _ ++ entries _).map Prod.fst
    rw [map_append, placesFrom_numbers]
    exact congrArg _ ih

/-- **Distinct directives have distinct markers**, in every map of sources. -/
theorem distinctMarkers (files : List SourceFile) : DistinctMarkers files := by
  unfold DistinctMarkers filePlaces
  rw [filePlaces_numbers]
  exact numbers_nodup 0 (srcMap files)

theorem lookup_marker {srcs : List (Name × Text)} {s : Name × Text × List Piece}
    (hs : s ∈ encodePieces 0 srcs) {n : ℕ}
    {block : List Line} (hp : Piece.marker n block ∈ s.2.2) :
    (encodeAccDirectives srcs).directives.lookup n = some block := by
  apply AssocLists.lookup_of_mem (numbers_nodup 0 srcs)
  exact mem_flatMap.2 ⟨s, hs, mem_filterMap.2 ⟨_, hp, rfl⟩⟩

/-- The directive that begins at a line belongs to the specification part. -/
def SourceFile.SpecDirective (F : SourceFile) (i : ℕ) : Prop :=
  ∃ line, (splitlines F.text)[i]? = some line ∧ inSpecPart line

theorem markersMayStand_iff (files : List SourceFile) :
    MarkersMayStand files ↔ ∀ F ∈ files, ∀ i, F.BeginsDirective i → ¬ F.SpecDirective i →
      F.MayStand i := by
  have hplaces : ∀ (F : SourceFile) (c i : ℕ),
      (∃ n, (i, n) ∈ placesFrom 0 (encodeFrom 0 c (splitlines F.text))) ↔
        F.BeginsDirective i ∧ ¬ F.SpecDirective i := by
    intro F c i
    rw [mem_placesFrom false 0 c 0 (splitlines F.text) rfl]
    constructor
    · rintro ⟨k, hk, hbegins, hspec⟩
      obtain rfl : i = k := by omega
      obtain ⟨line, hline, hsentinel, -, hbefore⟩ := (beginsFrom_iff _ _ _).1 hbegins
      refine ⟨⟨line, hline, hsentinel, hbefore⟩, ?_⟩
      rintro ⟨line', hline', hin⟩
      exact hspec line' hline' hin
    · rintro ⟨⟨line, hline, hsentinel, hbefore⟩, hspec⟩
      refine ⟨i, by omega, (beginsFrom_iff _ _ _).2 ⟨line, hline, hsentinel,
        fun _ => rfl, hbefore⟩, ?_⟩
      exact fun line' hline' hin => hspec ⟨line', hline', hin⟩
  unfold MarkersMayStand filePlaces
  constructor
  · intro h F hF i hbegins hspec
    obtain ⟨c, hc⟩ := mem_filePlaces 0 hF
    obtain ⟨n, hn⟩ := (hplaces F c i).2 ⟨hbegins, hspec⟩
    exact h _ hc (i, n) hn
  · intro h p hp m hm
    obtain ⟨hF, c, hc⟩ := of_mem_filePlaces hp
    rw [hc] at hm
    obtain ⟨hbegins, hspec⟩ := (hplaces p.1 c m.1).1 ⟨m.2, hm⟩
    exact h p.1 hF m.1 hbegins hspec

/-- `!$acc loop` before a loop. -/
def loopDirective : SourceFile where
  name := "a".toList
  text := "!$acc loop\ndo i = 1, n\nend do\n".toList
  inExecutionPart _ := true

/-- A directive between the lines of a statement. -/
def splitStatement : SourceFile where
  name := "b".toList
  text := "x = a + &\n!$acc loop\nb\n".toList
  inExecutionPart _ := true

end Preprocess.AccMarkers
