import Scriptlet.Token.Stream
import Scriptlet.Proofs.Lexer.Reference
import Mathlib.Data.String.Basic

/-!
# Streams yield the items of their text

A stream sees octets where the rules speak of characters. `view` is a text as a stream sees it: each
octet as the character of its code. A character the rules know is its own view, and the view of any
other consists of characters that no rule knows either, so reading on in the view and reading on in the
text come to the same place (`takeWhile_view`).

`Reads s before rest` says that a stream stands between two parts of its text.

Results:
* `Reads.scan`: **the next piece of a stream is the one that is cut off its text.**
* `nth_ofText`: call after call, a stream yields the items of its text, and then nothing.
* `lex_exact`: **the items are exactly those of the lexical rules**, nothing of the text is lost, no
  slice is off, and the end of the text comes last.
-/

namespace Scriptlet

open Lexer

namespace Stream

/-! ## Octets -/

/-- A text as a stream sees it. -/
def view (text : List Char) : List Char :=
  text.flatMap fun c => (String.utf8EncodeChar c).map fun b => Char.ofNat b.toNat

theorem view_append (a b : List Char) : view (a ++ b) = view a ++ view b := List.flatMap_append

theorem toNat_ofNat_octet (b : UInt8) : (Char.ofNat b.toNat).toNat = b.toNat := by
  have hb := b.toNat_lt
  rw [Char.ofNat, dif_pos (.inl (by omega))]
  rfl

/-- A character of one octet is its own view. -/
theorem view_singleton_of_lt {c : Char} (h : c.toNat < 128) : view [c] = [c] := by
  have hsize : c.utf8Size = 1 :=
    Char.utf8Size_eq_one_iff.mpr (UInt32.le_iff_toNat_le.mpr (Nat.le_of_lt_succ h))
  have hoctet : (c.val.toUInt8).toNat = c.toNat := by
    rw [UInt32.toNat_toUInt8]
    exact Nat.mod_eq_of_lt (Nat.lt_trans h (by decide))
  simp only [view, List.flatMap_cons, List.flatMap_nil, List.append_nil,
    String.utf8EncodeChar_eq_singleton hsize, List.map_cons, List.map_nil, hoctet,
    Char.ofNat_toNat]

/-- Any other character is seen as characters of more than one octet. -/
theorem le_of_mem_view {c : Char} (h : 128 ≤ c.toNat) {d : Char} (hd : d ∈ view [c]) :
    128 ≤ d.toNat := by
  simp only [view, List.flatMap_cons, List.flatMap_nil, List.append_nil, List.mem_map] at hd
  obtain ⟨b, hb, rfl⟩ := hd
  rw [toNat_ofNat_octet]
  have hval : ¬ c.val.toNat ≤ 127 := Nat.not_le.mpr h
  simp only [String.utf8EncodeChar, hval, if_false] at hb
  split_ifs at hb <;> simp only [List.mem_cons, List.not_mem_nil, or_false] at hb
  · rcases hb with rfl | rfl <;> simp only [UInt8.toNat_ofNat'] <;> omega
  · rcases hb with rfl | rfl | rfl <;> simp only [UInt8.toNat_ofNat'] <;> omega
  · rcases hb with rfl | rfl | rfl | rfl <;> simp only [UInt8.toNat_ofNat'] <;> omega

theorem length_view_singleton (c : Char) : (view [c]).length = c.utf8Size := by
  simp [view, String.length_utf8EncodeChar]

theorem length_view (text : List Char) : (view text).length = String.utf8Len text := by
  induction text with
  | nil => rfl
  | cons c cs ih =>
    rw [← List.singleton_append, view_append, List.length_append, ih, length_view_singleton,
      List.singleton_append, String.utf8Len_cons, Nat.add_comm]

/-- The view of a text begins with an octet of its first character. -/
theorem view_cons (c : Char) (cs : List Char) :
    ∃ d ds, view (c :: cs) = d :: ds ∧ d ∈ view [c] := by
  have hpos : view [c] ≠ [] :=
    List.ne_nil_of_length_pos (length_view_singleton c ▸ c.utf8Size_pos)
  obtain ⟨d, ds, hview⟩ := List.exists_cons_of_ne_nil hpos
  refine ⟨d, ds ++ view cs, ?_, hview ▸ List.mem_cons_self⟩
  rw [← List.singleton_append, view_append, hview, List.cons_append]

/-- Lines are counted alike. -/
theorem count_view (text : List Char) : (view text).count '\n' = text.count '\n' := by
  induction text with
  | nil => rfl
  | cons c cs ih =>
    rw [← List.singleton_append, view_append, List.count_append, List.count_append, ih]
    congr 1
    by_cases hc : c.toNat < 128
    · rw [view_singleton_of_lt hc]
    · have hc := Nat.le_of_not_lt hc
      rw [List.count_eq_zero.mpr fun hm => absurd (le_of_mem_view hc hm) (by decide),
        List.count_eq_zero.mpr fun hm => ?_]
      obtain rfl := List.mem_singleton.mp hm
      exact absurd hc (by decide)

/-- `p` does not tell characters of more than one octet apart. -/
def Blind (p : Char → Bool) : Prop :=
  ∀ c d : Char, 128 ≤ c.toNat → 128 ≤ d.toNat → p c = p d

theorem mem_view {p : Char → Bool} (hp : Blind p) (c : Char) : ∀ d ∈ view [c], p d = p c := by
  intro d hd
  by_cases hc : c.toNat < 128
  · rw [view_singleton_of_lt hc, List.mem_singleton] at hd
    rw [hd]
  · have hc := Nat.le_of_not_lt hc
    exact hp d c (le_of_mem_view hc hd) hc

/-- **Reading on in the view comes to the same place as reading on in the text.** -/
theorem takeWhile_view {p : Char → Bool} (hp : Blind p) {run rest : List Char}
    (hrun : ∀ c ∈ run, p c = true) (hrest : Stops p rest) :
    (view (run ++ rest)).takeWhile p = view run := by
  rw [view_append]
  refine takeWhile_run (fun d hd => ?_) (fun d hd => ?_)
  · obtain ⟨c, hc, hd⟩ := List.mem_flatMap.mp hd
    rw [mem_view hp c d (by simpa [view] using hd)]
    exact hrun c hc
  · cases rest with
    | nil => cases hd
    | cons c cs =>
      obtain ⟨e, es, hview, he⟩ := view_cons c cs
      rw [hview] at hd
      cases hd
      rw [mem_view hp c d he]
      exact hrest c rfl

theorem blind_of_small {p : Char → Bool} (h : ∀ c : Char, 128 ≤ c.toNat → p c = false) : Blind p :=
  fun c d hc hd => (h c hc).trans (h d hd).symm

theorem ne_of_large {c d : Char} (h : 128 ≤ c.toNat) (hd : d.toNat < 128) : c ≠ d := by
  rintro rfl
  exact absurd h (Nat.not_le.mpr hd)

theorem isDigit_large {c : Char} (h : 128 ≤ c.toNat) : isDigit c = false := by
  refine Bool.eq_false_iff.mpr fun hc => ?_
  simp only [isDigit, Bool.and_eq_true, decide_eq_true_eq] at hc
  have : c.toNat ≤ '9'.toNat := hc.2
  exact absurd (Nat.le_trans h this) (by decide)

theorem isWordStart_large {c : Char} (h : 128 ≤ c.toNat) : isWordStart c = false := by
  refine Bool.eq_false_iff.mpr fun hc => ?_
  simp only [isWordStart, Bool.or_eq_true, Bool.and_eq_true, decide_eq_true_eq, beq_iff_eq] at hc
  rcases hc with (⟨-, hz⟩ | ⟨-, hz⟩) | rfl
  · have : c.toNat ≤ 'z'.toNat := hz
    exact absurd (Nat.le_trans h this) (by decide)
  · have : c.toNat ≤ 'Z'.toNat := hz
    exact absurd (Nat.le_trans h this) (by decide)
  · exact absurd h (by decide)

theorem blind_isDigit : Blind isDigit := blind_of_small fun _ => isDigit_large

theorem blind_isWordChar : Blind isWordChar :=
  blind_of_small fun c hc => by rw [isWordChar, isWordStart_large hc, isDigit_large hc]; rfl

theorem blind_ne {d : Char} (hd : d.toNat < 128) : Blind (· != d) := fun _ _ hc hc' =>
  (bne_iff_ne.mpr (ne_of_large hc hd)).trans (bne_iff_ne.mpr (ne_of_large hc' hd)).symm

/-! ## Positions -/

/-- What a stream still has before it, as it sees it. -/
def unread (s : Stream) : List Char :=
  (s.octets.data.toList.drop s.position).map fun b => Char.ofNat b.toNat

theorem length_unread (s : Stream) : s.unread.length = s.left := by
  simp [unread, left]

theorem octet_eq (s : Stream) (k : Nat) :
    s.octet (s.position + k) = (s.unread[k]?).getD (Char.ofNat 0) := by
  have hget : s.octets[s.position + k]? = s.octets.data.toList[s.position + k]? := by
    by_cases h : s.position + k < s.octets.size
    · rw [getElem?_pos s.octets _ h, ByteArray.getElem_eq_getElem_data]
      simp
    · rw [getElem?_neg s.octets _ h]
      simpa using h
  simp only [octet, unread, List.getElem?_map, List.getElem?_drop, hget]
  cases s.octets.data.toList[s.position + k]? <;> rfl

theorem peek_eq (s : Stream) : s.peek = s.unread.headD (Char.ofNat 0) := by
  rw [peek, ← Nat.add_zero s.position, octet_eq]
  cases s.unread <;> rfl

theorem unread_advance (s : Stream) : s.advance.unread = s.unread.tail := by
  simp [unread, advance]

/-- **The stream stands between two parts of its text.** -/
structure Reads (s : Stream) (before rest : List Char) : Prop where
  text : s.text.toList = before ++ rest
  octets : s.octets = s.text.toUTF8
  position : s.position = String.utf8Len before

namespace Reads

variable {s : Stream} {before rest : List Char}

theorem unread_eq (h : Reads s before rest) : s.unread = view rest := by
  have htext : s.text = String.ofList (before ++ rest) := by rw [← h.text, String.ofList_toList]
  have hoctets : s.octets.data.toList =
      before.flatMap String.utf8EncodeChar ++ rest.flatMap String.utf8EncodeChar := by
    rw [h.octets, String.toUTF8, htext, String.toByteArray_ofList, List.utf8Encode,
      List.toList_data_toByteArray, List.flatMap_append]
  have hlength : (before.flatMap String.utf8EncodeChar).length = s.position := by
    rw [h.position, ← length_view, view, List.length_flatMap, List.length_flatMap]
    simp
  rw [unread, hoctets, ← hlength, List.drop_left, view, List.map_flatMap]

/-- All octets are those before and those behind. -/
theorem size_eq (h : Reads s before rest) :
    s.octets.size = s.position + String.utf8Len rest := by
  rw [h.octets, h.position, String.toUTF8, String.size_toByteArray, ← String.utf8Len_toList, h.text,
    String.utf8Len_append]

theorem peek_nil (h : Reads s before []) : s.peek = Char.ofNat 0 := by
  rw [peek_eq, h.unread_eq]
  rfl

/-- A character of one octet is seen as what it is. -/
theorem peek_cons {c : Char} (h : Reads s before (c :: rest)) (hc : c.toNat < 128) :
    s.peek = c := by
  rw [peek_eq, h.unread_eq, ← List.singleton_append, view_append, view_singleton_of_lt hc]
  rfl

/-- Of a longer one only an octet is seen. -/
theorem peek_large {c : Char} (h : Reads s before (c :: rest)) (hc : 128 ≤ c.toNat) :
    128 ≤ s.peek.toNat := by
  obtain ⟨d, ds, hview, hd⟩ := view_cons c rest
  rw [peek_eq, h.unread_eq, hview]
  exact le_of_mem_view hc hd

end Reads

/-! ## Reading on -/

/-- The stream behind a text that comes next. -/
def behind (text : List Char) (s : Stream) : Stream :=
  { s with position := s.position + String.utf8Len text, line := s.line + text.count '\n' }

theorem behind_append (a b : List Char) (s : Stream) :
    s.behind (a ++ b) = (s.behind a).behind b := by
  simp only [behind, String.utf8Len_append, List.count_append, Nat.add_assoc]

theorem Reads.behind {s : Stream} {before text rest : List Char}
    (h : Reads s before (text ++ rest)) : Reads (s.behind text) (before ++ text) rest where
  text := by rw [List.append_assoc, ← h.text, Stream.behind]
  octets := h.octets
  position := by rw [String.utf8Len_append, ← h.position, Stream.behind]

theorem behind_singleton {c : Char} (hc : c.toNat < 128) (hline : c ≠ '\n') (s : Stream) :
    s.behind [c] = s.advance := by
  have hsize : c.utf8Size = 1 := by
    rw [← length_view_singleton, view_singleton_of_lt hc, List.length_singleton]
  simp [behind, advance, hsize, hline]

theorem passWhile_eq (p : Char → Bool) {n : Nat} {s : Stream} (hn : s.unread.length = n) :
    s.passWhile p n = { s with position := s.position + (s.unread.takeWhile p).length } := by
  induction n generalizing s with
  | zero => simp [passWhile, List.eq_nil_of_length_eq_zero hn]
  | succ n ih =>
    obtain ⟨c, cs, hs⟩ := List.exists_cons_of_length_eq_add_one hn
    have hadvance : s.advance.unread = cs := by rw [unread_advance, hs, List.tail_cons]
    have hpeek : s.peek = c := by rw [peek_eq, hs, List.headD_cons]
    rw [passWhile, hpeek, hs]
    split
    · next hc =>
      rw [ih (by simpa [hadvance, hs] using hn), hadvance, List.takeWhile_cons_of_pos hc]
      simp only [advance, List.length_cons, Stream.mk.injEq, true_and, and_true]
      omega
    · next hc => rw [List.takeWhile_cons_of_neg hc, List.length_nil, Nat.add_zero]

theorem passText_eq {n : Nat} {s : Stream} (hn : s.unread.length = n) :
    s.passText n = { s with
      position := s.position + (s.unread.takeWhile (· != '"')).length
      line := s.line + (s.unread.takeWhile (· != '"')).count '\n' } := by
  induction n generalizing s with
  | zero => simp [passText, List.eq_nil_of_length_eq_zero hn]
  | succ n ih =>
    obtain ⟨c, cs, hs⟩ := List.exists_cons_of_length_eq_add_one hn
    have hpeek : s.peek = c := by rw [peek_eq, hs, List.headD_cons]
    rw [passText, hpeek, hs]
    split
    · next hc => rw [List.takeWhile_cons_of_neg (by simpa using hc)]; rfl
    · next hc =>
      have hadvance (line : Nat) : unread { s.advance with line } = cs := by
        rw [← @List.tail_cons _ c cs, ← hs, ← unread_advance, unread, unread]
      rw [ih (by rw [hadvance, ← Nat.add_right_cancel_iff (n := 1), ← hn, hs, List.length_cons]),
        hadvance, List.takeWhile_cons_of_pos (by simpa using hc)]
      simp only [advance, List.length_cons, List.count_cons, Stream.mk.injEq, true_and]
      constructor
      · omega
      · split <;> omega

section
variable {s : Stream} {before run rest : List Char}

/-- A stream reads on to the end of a run. -/
theorem Reads.passWhile {p : Char → Bool} (h : Reads s before (run ++ rest)) (hp : Blind p)
    (hline : p '\n' = false) (hrun : ∀ c ∈ run, p c = true) (hrest : Stops p rest) :
    s.passWhile p s.left = s.behind run := by
  have hcount : run.count '\n' = 0 :=
    List.count_eq_zero.mpr fun hm => by simpa [hline] using hrun _ hm
  rw [passWhile_eq p (length_unread s), h.unread_eq, takeWhile_view hp hrun hrest, length_view,
    Stream.behind, hcount, Nat.add_zero]

/-- A stream reads on to the end of the text of a string. -/
theorem Reads.passText (h : Reads s before (run ++ rest))
    (hrun : ∀ c ∈ run, (c != '"') = true) (hrest : Stops (· != '"') rest) :
    s.passText s.left = s.behind run := by
  rw [passText_eq (length_unread s), h.unread_eq,
    takeWhile_view (blind_ne (by decide)) hrun hrest, length_view, count_view, Stream.behind]

end

/-! ## Slices -/

/-- The position at the end of a first part of a text is between characters. -/
theorem isValid_append (a b : List Char) :
    String.Pos.Raw.isValid (String.ofList (a ++ b)) ⟨String.utf8Len a⟩ = true := by
  rw [String.Pos.Raw.isValid_eq_true_iff, String.Pos.Raw.isValid_iff_exists_append]
  refine ⟨String.ofList a, String.ofList b, String.ofList_append, ?_⟩
  rw [String.rawEndPos, String.utf8ByteSize_ofList]

theorem slice_eq {s : Stream} {a b c : List Char} (h : s.text.toList = a ++ (b ++ c)) :
    s.slice? (String.utf8Len a) (String.utf8Len a + String.utf8Len b) = some (String.ofList b) := by
  have htext : s.text = String.ofList (a ++ b ++ c) := by
    rw [List.append_assoc, ← h, String.ofList_toList]
  have hfirst := isValid_append a (b ++ c)
  have hlast := isValid_append (a ++ b) c
  rw [← List.append_assoc, ← htext] at hfirst
  rw [String.utf8Len_append, ← htext] at hlast
  rw [slice?, if_pos (by simp [hfirst, hlast]), htext, String.extract_of_valid]

/-! ## The next piece -/

/-- What a piece of a given kind turns out to be. -/
def Scan.ofKind : PieceKind → Stream → Scan
  | .skipped, s => .skipped s
  | .token kind, s => .token kind s
  | .fault f, s => .fault f s

/-- The stream at the beginning of a piece. -/
def begun (s : Stream) : Stream := { s with start := s.position }

theorem lt_of_single {c : Char} {symbol : Symbol} (h : single? c = some symbol) :
    c.toNat < 128 ∧ c ≠ '\n' := by
  unfold single? at h
  split at h <;> cases h <;> decide

theorem lt_of_double {c second : Char} {short long : Symbol}
    (h : double? c = some (short, second, long)) :
    (c.toNat < 128 ∧ c ≠ '\n') ∧ second.toNat < 128 ∧ second ≠ '\n' := by
  unfold double? at h
  split at h <;> cases h <;> decide

section
variable {s : Stream} {before text rest : List Char}

theorem Reads.begun (h : Reads s before rest) : Reads s.begun before rest := ⟨h.text, h.octets, h.position⟩

/-- A stream knows whether a character of one octet comes next. -/
theorem Reads.sees_iff (h : Reads s before rest) {d : Char} (hd : d.toNat < 128) :
    s.sees d = true ↔ rest.head? = some d := by
  have hsize := h.size_eq
  cases rest with
  | nil => simp [sees, hsize]
  | cons c cs =>
    have hpos := c.utf8Size_pos
    have hlt : s.position < s.octets.size := by
      rw [hsize, String.utf8Len_cons]
      omega
    simp only [sees, hlt, decide_true, Bool.true_and, beq_iff_eq, List.head?_cons,
      Option.some.injEq]
    by_cases hc : c.toNat < 128
    · rw [h.peek_cons hc]
    · have hc := Nat.le_of_not_lt hc
      exact iff_of_false (ne_of_large (h.peek_large hc) hd) (ne_of_large hc hd)

/-- The lexeme of a piece is its text. -/
theorem Reads.lexeme (h : Reads s before (text ++ rest)) :
    (s.begun.behind text).lexeme? = some (String.ofList text) := by
  rw [lexeme?, Stream.behind, Stream.begun, h.position]
  exact slice_eq h.text

theorem Reads.scanSlash (h : Reads s before ('/' :: rest)) :
    (s.begun.behind ['/']).scanSlash =
      .ofKind (cutSlash rest).kind (s.begun.behind (cutSlash rest).text) := by
  have hread : Reads (s.begun.behind ['/']) (before ++ ['/']) rest := h.begun.behind
  rw [Stream.scanSlash]
  by_cases hslash : rest.head? = some '/'
  · obtain ⟨after, rfl⟩ := List.head?_eq_some_iff.mp hslash
    obtain ⟨body, after, rfl, hbody, hafter⟩ := exists_run (· != '\n') after
    have hread' : Reads ((s.begun.behind ['/']).behind ['/']) (before ++ ['/'] ++ ['/'])
        (body ++ after) := hread.behind
    rw [if_pos ((hread.sees_iff (by decide)).mpr hslash), cutSlash_comment hbody hafter,
      ← behind_singleton (c := '/') (by decide) (by decide),
      hread'.passWhile (blind_ne (by decide)) rfl hbody hafter, ← behind_append, ← behind_append]
    rfl
  · rw [if_neg fun hs => hslash ((hread.sees_iff (by decide)).mp hs), cutSlash_slash hslash]
    rfl

theorem Reads.scanString (h : Reads s before ('"' :: rest)) :
    (s.begun.behind ['"']).scanString =
      .ofKind (cutString rest).kind (s.begun.behind (cutString rest).text) := by
  have hread : Reads (s.begun.behind ['"']) (before ++ ['"']) rest := h.begun.behind
  rw [Stream.scanString]
  by_cases hclosed : '"' ∈ rest
  · obtain ⟨body, after, rfl, hbody⟩ := exists_quote hclosed
    have hread' : Reads ((s.begun.behind ['"']).behind body) (before ++ ['"'] ++ body)
        ('"' :: after) := hread.behind
    have hopen : ¬ ((s.begun.behind ['"']).behind body).octets.size ≤
        ((s.begun.behind ['"']).behind body).position := by
      rw [hread'.size_eq, String.utf8Len_cons]
      have := '"'.utf8Size_pos
      omega
    have hslice := slice_eq (s := s.begun.behind ('"' :: (body ++ ['"']))) (a := before ++ ['"'])
      (b := body) (c := '"' :: after) (by rw [List.append_assoc]; exact h.text)
    have hquote : '"'.utf8Size = 1 := rfl
    rw [cutString_closed hbody, hread.passText hbody fun c hc => by cases hc; rfl, if_neg hopen,
      ← behind_singleton (c := '"') (by decide) (by decide), ← behind_append, ← behind_append,
      List.singleton_append]
    simp only
    have hlast : (s.begun.behind ('"' :: (body ++ ['"']))).position - 1 =
        String.utf8Len (before ++ ['"']) + String.utf8Len body := by
      simp only [Stream.behind, Stream.begun, h.position, String.utf8Len_cons, String.utf8Len_append,
        hquote, String.utf8Len_nil]
      omega
    have hfirst : (s.begun.behind ('"' :: (body ++ ['"']))).start + 1 =
        String.utf8Len (before ++ ['"']) := by
      simp only [Stream.behind, Stream.begun, h.position, String.utf8Len_cons, String.utf8Len_append,
        hquote, String.utf8Len_nil]
    rw [hlast, hfirst, hslice]
    rfl
  · have hbody := run_of_not_mem hclosed
    have hread' : Reads ((s.begun.behind ['"']).behind rest) (before ++ ['"'] ++ rest) [] :=
      Reads.behind (by rwa [List.append_nil])
    have hall : Reads (s.begun.behind ['"']) (before ++ ['"']) (rest ++ []) := by
      rwa [List.append_nil]
    rw [cutString_open hbody, hall.passText hbody nofun, if_pos (by rw [hread'.size_eq]; rfl), ← behind_append]
    rfl

theorem Reads.scanWord {c : Char} (h : Reads s before (c :: rest)) :
    (s.begun.behind [c]).scanWord =
      .ofKind (cutWord c rest).kind (s.begun.behind (cutWord c rest).text) := by
  obtain ⟨word, after, rfl, hword, hafter⟩ := exists_run isWordChar rest
  have hread : Reads (s.begun.behind [c]) (before ++ [c]) (word ++ after) := h.begun.behind
  have hall : Reads s before (c :: word ++ after) := h
  rw [Stream.scanWord, cutWord_run hword hafter,
    hread.passWhile blind_isWordChar rfl hword hafter, ← behind_append, List.singleton_append,
    hall.lexeme]
  rfl

theorem numberOf_integer {digits : List Char} (h : ∀ c ∈ digits, isDigit c = true) :
    numberOf (String.ofList digits) = Number.ofDigits digits [] := by
  rw [numberOf, String.toList_ofList, List.takeWhile_eq_self_iff.mpr h,
    List.dropWhile_eq_nil_iff.mpr h, List.drop_nil]

theorem numberOf_decimal {whole : List Char} (h : ∀ c ∈ whole, isDigit c = true)
    (fraction : List Char) :
    numberOf (String.ofList (whole ++ '.' :: fraction)) = Number.ofDigits whole fraction := by
  have hpoint : Stops isDigit ('.' :: fraction) := fun c hc => by cases hc; rfl
  rw [numberOf, String.toList_ofList, takeWhile_run h hpoint, dropWhile_run h hpoint,
    List.drop_one, List.tail_cons]

theorem Reads.isDigit_peek_iff (h : Reads s before rest) :
    isDigit s.peek = true ↔ ¬ Stops isDigit rest := by
  cases rest with
  | nil =>
    rw [h.peek_nil]
    exact iff_of_false nofun fun hstops => hstops nofun
  | cons c cs =>
    have hstops : Stops isDigit (c :: cs) ↔ isDigit c = false := by simp [Stops]
    rw [hstops, Bool.not_eq_false]
    by_cases hc : c.toNat < 128
    · rw [h.peek_cons hc]
    · have hc := Nat.le_of_not_lt hc
      rw [isDigit_large hc, isDigit_large (h.peek_large hc)]

theorem not_stops {p : Char → Bool} (hne : text ≠ []) (h : ∀ c ∈ text, p c = true) :
    ¬ Stops p (text ++ rest) := by
  obtain ⟨c, cs, rfl⟩ := List.exists_cons_of_ne_nil hne
  intro hstops
  have hc := h c List.mem_cons_self
  rw [hstops c rfl] at hc
  cases hc

/-- A stream knows whether a point and a digit come next. -/
theorem Reads.seesFraction_iff (h : Reads s before rest) :
    (s.peek == '.' && isDigit (s.octet (s.position + 1))) = true ↔
      ∃ after, rest = '.' :: after ∧ ¬ Stops isDigit after := by
  rw [Bool.and_eq_true, beq_iff_eq]
  cases rest with
  | nil => simp [h.peek_nil]
  | cons c cs =>
    by_cases hc : c.toNat < 128
    · by_cases hpoint : c = '.'
      · subst hpoint
        have hread : Reads s.advance (before ++ ['.']) cs := by
          rw [← behind_singleton (c := '.') (by decide) (by decide)]
          exact h.behind
        simp only [h.peek_cons hc, true_and, List.cons.injEq, exists_eq_left']
        exact hread.isDigit_peek_iff
      · simp [h.peek_cons hc, hpoint]
    · have hc := Nat.le_of_not_lt hc
      have hpeek : s.peek ≠ '.' := ne_of_large (h.peek_large hc) (by decide)
      have hpoint : c ≠ '.' := ne_of_large hc (by decide)
      simp [hpeek, hpoint]

theorem Reads.scanNumber {c : Char} (h : Reads s before (c :: rest)) (hc : isDigit c = true) :
    (s.begun.behind [c]).scanNumber =
      .ofKind (cutNumber c rest).kind (s.begun.behind (cutNumber c rest).text) := by
  obtain ⟨whole, after, rfl, hwhole, hafter, hcases⟩ := numeral_cases rest
  have hread : Reads (s.begun.behind [c]) (before ++ [c]) (whole ++ after) := h.begun.behind
  have hread' : Reads ((s.begun.behind [c]).behind whole) (before ++ [c] ++ whole) after :=
    hread.behind
  have hdigits : ∀ d ∈ c :: whole, isDigit d = true := List.forall_mem_cons.mpr ⟨hc, hwhole⟩
  rw [Stream.scanNumber, hread.passWhile blind_isDigit rfl hwhole hafter]
  rcases hcases with hpoint | ⟨fraction, tail, rfl, hne, hfraction, htail⟩
  · have hseen : ¬ _ := fun hs => by
      obtain ⟨tail, rfl, hstops⟩ := hread'.seesFraction_iff.mp hs
      exact hstops (hpoint tail rfl)
    have hall : Reads s before (c :: whole ++ after) := h
    rw [if_neg hseen, ← behind_append, List.singleton_append, hall.lexeme,
      cutNumber_integer hwhole hafter hpoint, Scan.ofSlice, numberOf_integer hdigits]
    rfl
  · have hseen := hread'.seesFraction_iff.mpr ⟨_, rfl, not_stops hne hfraction⟩
    have hpoint : Reads (((s.begun.behind [c]).behind whole).behind ['.'])
        (before ++ [c] ++ whole ++ ['.']) (fraction ++ tail) := hread'.behind
    have htext : [c] ++ (whole ++ (['.'] ++ fraction)) = c :: whole ++ '.' :: fraction := by simp
    have hall : Reads s before (c :: whole ++ '.' :: fraction ++ tail) := by simpa using h
    rw [if_pos hseen, ← behind_singleton (c := '.') (by decide) (by decide),
      hpoint.passWhile blind_isDigit rfl hfraction htail, ← behind_append, ← behind_append,
      ← behind_append, htext, hall.lexeme, cutNumber_decimal hwhole hne hfraction htail, Scan.ofSlice,
      numberOf_decimal hdigits]
    rfl

/-- A whole character is at fault, whatever octet of it was seen. -/
theorem Reads.scanUnexpected {c : Char} (h : Reads s before (c :: rest)) (hc : c ≠ '\n')
    (octet : Char) :
    s.begun.advance.scanUnexpected octet = .fault (.unexpected c) (s.begun.behind [c]) := by
  have htext : s.text = String.ofList (before ++ c :: rest) := by rw [← h.text, String.ofList_toList]
  have hvalid : String.Pos.Raw.isValid s.text ⟨s.position⟩ = true := by
    rw [htext, h.position]
    exact isValid_append ..
  have hget : String.Pos.Raw.get s.text ⟨s.position⟩ = c := by
    rw [htext, h.position, String.get_of_valid, List.headD_cons]
  have hcount : [c].count '\n' = 0 := List.count_eq_zero.mpr (by simpa using hc.symm)
  simp only [Stream.scanUnexpected, advance, Stream.begun, hvalid, if_true, hget, Stream.behind,
    hcount, String.utf8Len_cons, String.utf8Len_nil, Nat.zero_add, Nat.add_zero]

theorem unknown_of_large {c : Char} (h : 128 ≤ c.toNat) : Unknown c where
  space := by
    have hne (d : Char) (hd : d.toNat < 128) : c ≠ d := ne_of_large h hd
    simp [isBlank, hne ' ' (by decide), hne '\r' (by decide), hne '\t' (by decide),
      hne '\n' (by decide)]
  slash := ne_of_large h (by decide)
  quote := ne_of_large h (by decide)
  digit := isDigit_large h
  letter := isWordStart_large h
  single := Option.eq_none_iff_forall_ne_some.mpr fun _ hs =>
    absurd (lt_of_single hs).1 (Nat.not_lt.mpr h)
  double := Option.eq_none_iff_forall_ne_some.mpr fun _ hd =>
    absurd (lt_of_double hd).1.1 (Nat.not_lt.mpr h)

/-- A stream at a character that no rule knows takes it for one, as does the text. -/
theorem Reads.scan_unknown {c : Char} (h : Reads s before (c :: rest)) (hc : Unknown c) :
    s.scan = .ofKind (Piece.cut c rest).kind (s.begun.behind (Piece.cut c rest).text) := by
  have hline : c ≠ '\n' := fun e => by
    have hspace := hc.space
    rw [e] at hspace
    cases hspace
  have hpeek : Unknown s.peek := by
    by_cases hlt : c.toNat < 128
    · rwa [h.peek_cons hlt]
    · exact unknown_of_large (h.peek_large (Nat.le_of_not_lt hlt))
  obtain ⟨hblank, hnewline⟩ := Bool.or_eq_false_iff.mp hpeek.space
  rw [hc.cut, Scan.ofKind, ← h.scanUnexpected hline s.peek]
  simp only [Stream.scan, hblank, hnewline, hpeek.digit, hpeek.letter, hpeek.single, hpeek.double,
    beq_false_of_ne hpeek.slash, beq_false_of_ne hpeek.quote, Bool.false_eq_true, if_false]
  rfl

/-- **The next piece of a stream is the one that is cut off its text.** -/
theorem Reads.scan {c : Char} (h : Reads s before (c :: rest)) :
    s.scan = .ofKind (Piece.cut c rest).kind (s.begun.behind (Piece.cut c rest).text) := by
  by_cases hunknown : Unknown c
  · exact h.scan_unknown hunknown
  have hsmall : c.toNat < 128 :=
    Nat.lt_of_not_le fun hlarge => hunknown (unknown_of_large hlarge)
  have hpeek := h.peek_cons hsmall
  by_cases hline : c = '\n'
  · subst hline
    rw [cut_space (.inr rfl), Stream.scan, hpeek]
    rfl
  have hadvance : ({ s with start := s.position } : Stream).advance = s.begun.behind [c] :=
    (behind_singleton hsmall hline s.begun).symm
  simp only [Stream.scan, hpeek, hadvance, beq_false_of_ne hline, Bool.false_eq_true, if_false]
  by_cases hblank : isBlank c = true
  · rw [cut_space (.inl hblank), if_pos hblank]
    rfl
  rw [if_neg hblank]
  by_cases hslash : c = '/'
  · subst hslash
    rw [cut_slash, ← h.scanSlash]
    rfl
  rw [if_neg (by simpa using hslash)]
  by_cases hquote : c = '"'
  · subst hquote
    rw [cut_quote, ← h.scanString]
    rfl
  rw [if_neg (by simpa using hquote)]
  by_cases hdigit : isDigit c = true
  · rw [cut_digit hdigit, ← h.scanNumber hdigit, if_pos hdigit]
  rw [if_neg hdigit]
  by_cases hletter : isWordStart c = true
  · rw [cut_letter hletter, ← h.scanWord, if_pos hletter]
  rw [if_neg hletter]
  cases hsingle : single? c with
  | some symbol =>
    rw [cut_single hsingle]
    rfl
  | none =>
    cases hdouble : double? c with
    | some found =>
      obtain ⟨short, second, long⟩ := found
      obtain ⟨-, hsecond, hsecond'⟩ := lt_of_double hdouble
      have hread : Reads (s.begun.behind [c]) (before ++ [c]) rest := h.begun.behind
      rw [cut_double hdouble]
      simp only [hread.sees_iff hsecond, ← behind_singleton hsecond hsecond', ← behind_append]
      split <;> rfl
    | none =>
      exact absurd ⟨by simp [hblank, hline], hslash, hquote, by simpa using hdigit,
        by simpa using hletter, hsingle, hdouble⟩ hunknown

end

/-! ## Call after call -/

/-- What a stream still yields. -/
inductive Pending : Stream → List LexItem → Prop
  | reads {s : Stream} {before rest : List Char} (h : Reads s before rest)
      (hline : s.line = lineAfter before) :
    Pending s (itemsFrom (lineAfter before) (pieces rest))
  | ended {s : Stream} (h : s.octets.size < s.position) : Pending s []

/-- **An answer is the first of some items**, and the others are still to come. -/
inductive Gives : List LexItem → Answer → Prop
  | item {item : LexItem} {items : List LexItem} {s : Stream} (h : Pending s items) :
    Gives (item :: items) (.yields item s)
  | nothing {s : Stream} (h : Pending s []) : Gives [] (.ends s)

theorem Gives.item?_eq {items : List LexItem} {answer : Answer} (h : Gives items answer) :
    answer.item? = some items.head? := by
  cases h <;> rfl

theorem utf8Len_pos {text : List Char} (h : text ≠ []) : 0 < String.utf8Len text := by
  obtain ⟨c, cs, rfl⟩ := List.exists_cons_of_ne_nil h
  rw [String.utf8Len_cons]
  exact Nat.add_pos_right _ c.utf8Size_pos

theorem Reads.nextWithin {n : Nat} {s : Stream} {before rest : List Char} (h : Reads s before rest)
    (hline : s.line = lineAfter before) (hn : String.utf8Len rest < n) :
    Gives (itemsFrom (lineAfter before) (pieces rest)) (s.nextWithin n) := by
  induction n generalizing s before rest with
  | zero => exact absurd hn (Nat.not_lt_zero _)
  | succ n ih =>
    have hsize := h.size_eq
    rw [Stream.nextWithin, if_neg (by omega)]
    cases rest with
    | nil =>
      rw [String.utf8Len_nil, Nat.add_zero] at hsize
      rw [if_pos hsize.symm, hline]
      exact .item (.ended (hsize ▸ Nat.lt_succ_self _))
    | cons c cs =>
      have hpos := utf8Len_pos (List.cons_ne_nil c cs)
      rw [if_neg (by omega), h.scan, pieces_cons, itemsFrom_cons, ← lineAfter_append]
      -- What is left behind the piece is shorter, and begins where the stream then stands.
      generalize hp : Piece.cut c cs = p at *
      generalize htail : (c :: cs).drop p.text.length = tail at *
      have hsource : c :: cs = p.text ++ tail := by rw [← htail, ← hp, cut_append_drop]
      have hne : p.text ≠ [] := hp ▸ (candidate_cut c cs).ne_nil
      rw [hsource] at h hn
      rw [String.utf8Len_append] at hn
      have hpiece := utf8Len_pos hne
      have hread : Reads (s.begun.behind p.text) (before ++ p.text) tail := h.begun.behind
      have hline' : (s.begun.behind p.text).line = lineAfter (before ++ p.text) := by
        rw [lineAfter_append, ← hline]
        rfl
      have hrest : Pending (s.begun.behind p.text) _ := .reads hread hline'
      cases hkind : p.kind with
      | skipped =>
        simp only [Piece.item?, hkind, Scan.ofKind, Option.toList_none, List.nil_append]
        exact ih hread hline' (by omega)
      | token kind =>
        simp only [Piece.item?, hkind, Scan.ofKind, h.lexeme, hline', Option.toList_some,
          List.singleton_append]
        exact .item hrest
      | fault f =>
        simp only [Piece.item?, hkind, Scan.ofKind, hline', Option.toList_some,
          List.singleton_append]
        exact .item hrest

theorem Pending.next {s : Stream} {items : List LexItem} (h : Pending s items) :
    Gives items s.next := by
  cases h with
  | reads h hline =>
    refine h.nextWithin hline ?_
    rw [left, h.size_eq]
    omega
  | ended h =>
    rw [Stream.next, Stream.nextWithin, if_pos h]
    exact .nothing (.ended h)

theorem Pending.nth {s : Stream} {items : List LexItem} (h : Pending s items) (n : Nat) :
    Gives (items.drop n) (s.nth n) := by
  induction n with
  | zero => exact h.next
  | succ n ih =>
    rw [← List.tail_drop, Stream.nth]
    generalize items.drop n = left, s.nth n = answer at ih
    cases ih with
    | item h => exact h.next
    | nothing h => exact h.next

theorem pending_ofText (text : String) : Pending (ofText text) (lex text) := by
  have hreads : Reads (ofText text) [] text.toList := ⟨rfl, rfl, rfl⟩
  exact .reads hreads rfl

/-- **Call after call, a stream yields the items of its text, and then nothing.** -/
theorem nth_ofText (text : String) (n : Nat) :
    ((ofText text).nth n).item? = some (lex text)[n]? := by
  rw [((pending_ofText text).nth n).item?_eq, List.head?_drop]

/-- **A stream yields exactly what the lexical rules say, and loses nothing.** There is one way to read
a text by taking the longest candidate again and again. Call after call, a stream yields the items of
that reading, each with the line on which its piece ends; no call breaks on a slice that is not between
characters; the texts of all pieces make up the text; and the end of the text is yielded once and last,
after which nothing is. -/
theorem lex_exact (text : String) :
    ∃ (ps : List Piece) (items : List LexItem),
      (∀ ps' items', Reading [] text.toList ps' items' ↔ ps' = ps ∧ items' = items) ∧
      lex text = items ∧
      (∀ n, ((ofText text).nth n).item? = some items[n]?) ∧
      ps.flatMap Piece.text = text.toList ∧
      ∃ body, items = body ++ [.token ⟨.symbol .endOfText, "", lineAfter text.toList⟩] ∧
        ∀ t, .token t ∈ body → t.is .endOfText = false := by
  have hread : Reading [] text.toList (pieces text.toList) (lex text) := reading_pieces _ []
  exact ⟨pieces text.toList, lex text, fun _ _ => reading_iff, rfl, nth_ofText text,
    texts_of_reading hread, items_of_reading hread⟩

/-- A comment without a newline, a string over two lines, a point that no digit follows, a character of
two octets and a string that is never closed. -/
example : (pieces "1.é\"a\nb\"//é\n\"".toList).map Piece.text =
    [['1'], ['.'], ['é'], ['"', 'a', '\n', 'b', '"'], ['/', '/', 'é'], ['\n'], ['"']] := by
  decide

end Stream

end Scriptlet
