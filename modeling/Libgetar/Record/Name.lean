import Libgetar.Record.Model

/-!
# The name of a record

`processName` of `src/Record.cpp` reads a format and a resolution off the end of a name, and
`fullName` of `getPath` prints them there. `processName_suffix` and `processName_plain` say what the
parser does with every name: a name that ends in the suffixes of a binary record (`HasSuffix`) loses
them to the format and the resolution, and any other name is kept whole as text. That printing gives
every parsed name back (`fullName_processName`), and that parsing gives back what is printed exactly
when a text name could not be taken for a binary one (`processName_fullName`), follows from these
two alone.
-/

namespace Libgetar

open Lib

/-- A name that reads as that of a binary record: `x.F.R` with `F` a format and `R` one of `ind`
and `uni`. -/
def HasSuffix (name : Bytes) : Prop :=
  ∃ (x : Bytes) (f : Format) (res : Resolution), res ≠ .text ∧ name = x ++ f.suffix ++ res.suffix

/-- The piece of a name that spells a format, without its separator. -/
def Format.piece (f : Format) : Bytes := f.suffix.tail

/-- The piece of a name that spells a resolution, without its separator. -/
def Resolution.piece (res : Resolution) : Bytes := res.suffix.tail

theorem Format.suffix_eq (f : Format) : f.suffix = dot :: f.piece := by
  cases f <;> decide

theorem Resolution.suffix_eq {res : Resolution} (h : res ≠ .text) :
    res.suffix = dot :: res.piece := by
  cases res <;> first | exact absurd rfl h | decide

theorem Format.dot_not_mem_piece (f : Format) : dot ∉ f.piece := by
  cases f <;> decide

theorem Resolution.dot_not_mem_piece (res : Resolution) : dot ∉ res.piece := by
  cases res <;> decide

namespace Record

/-- The parser's table of formats is the printer's. -/
theorem parseFormat_piece (f : Format) : parseFormat f.piece = some f := by
  cases f <;> decide

/-- A piece that parses as a format is the one that the format prints. -/
theorem eq_piece_of_parseFormat {piece : Bytes} {f : Format} (h : parseFormat piece = some f) :
    piece = f.piece := by
  unfold parseFormat at h
  split_ifs at h with h₁ h₂ h₃ h₄ h₅ h₆ h₇
  · cases h; exact h₁
  · cases h; exact h₂
  · cases h; exact h₃
  · cases h; exact h₄
  · cases h; exact h₅
  · cases h; exact h₆
  · cases h; exact h₇

/-- A piece that stands for a resolution. -/
theorem eq_ind_or_uni_iff {piece : Bytes} :
    (piece = lit "ind" ∨ piece = lit "uni") ↔ ∃ res : Resolution, res ≠ .text ∧ piece = res.piece := by
  constructor
  · rintro (rfl | rfl)
    · exact ⟨.individual, by decide, by decide⟩
    · exact ⟨.uniform, by decide, by decide⟩
  · rintro ⟨res, hres, rfl⟩
    cases res
    · exact absurd rfl hres
    · exact Or.inr (by decide)
    · exact Or.inl (by decide)

/-- The loop that puts the pieces in front of the window into the name. -/
theorem foldl_pieces (m : Bytes) (init : List Bytes) :
    init.foldl (fun m_name piece => m_name ++ piece ++ [dot]) m =
      m ++ init.flatMap (· ++ [dot]) := by
  induction init generalizing m with
  | nil => simp
  | cons p init ih => rw [List.foldl_cons, ih]; simp

/-- `processName` on a name of at least three pieces, with its window named. -/
theorem processName_window (r : Record) {name : Bytes} {init : List Bytes} {a b c : Bytes}
    (h : name.splitOn dot = init ++ [a, b, c]) :
    r.processName name =
      if c = lit "ind" ∨ c = lit "uni" then
        match parseFormat b with
        | some format =>
          { r with
            name := r.name ++ [dot].intercalate (init ++ [a]), format := format
            resolution := if c = lit "ind" then .individual else .uniform }
        | none => { r with name := r.name ++ name, format := .uint8, resolution := .text }
      else { r with name := r.name ++ name, format := .uint8, resolution := .text } := by
  have hname : r.name ++ name =
      r.name ++ init.flatMap (· ++ [dot]) ++ a ++ [dot] ++ b ++ [dot] ++ c := by
    have hjoin : [dot].intercalate (name.splitOn dot) = name := List.intercalate_splitOn dot
    rw [← hjoin, h, show init ++ [a, b, c] = init ++ [a] ++ [b] ++ [c] by simp, intercalate_concat_eq_flatMap]
    simp
  simp only [processName, split_eq_splitOn, h, foldl_pieces, hname, intercalate_concat_eq_flatMap]
  rcases hb : parseFormat b with _ | f <;> simp [hb]

/-- `processName` on a name of at most two pieces keeps it whole. -/
theorem processName_short (r : Record) {name : Bytes} (h : (name.splitOn dot).length ≤ 2) :
    r.processName name = { r with name := r.name ++ name } := by
  have hname : [dot].intercalate (name.splitOn dot) = name := List.intercalate_splitOn dot
  simp only [processName, split_eq_splitOn]
  rcases hs : name.splitOn dot with _ | ⟨p, _ | ⟨q, _ | ⟨s, rest⟩⟩⟩
  · exact absurd hs (List.splitOn_ne_nil dot name)
  · rw [hs] at hname
    simp [← hname]
  · rw [hs] at hname
    simp [← hname]
  · rw [hs] at h
    simp at h

/-- A name with the suffixes of a binary record loses them to the format and the resolution. -/
theorem processName_suffix (r : Record) (x : Bytes) (f : Format) {res : Resolution}
    (hres : res ≠ .text) :
    r.processName (x ++ f.suffix ++ res.suffix) =
      { r with name := r.name ++ x, format := f, resolution := res } := by
  obtain ⟨init, a, hx⟩ : ∃ init a, x.splitOn dot = init ++ [a] := by
    have hne := List.splitOn_ne_nil dot x
    exact ⟨_, _, (List.dropLast_append_getLast hne).symm⟩
  have hsplit : (x ++ f.suffix ++ res.suffix).splitOn dot = init ++ [a, f.piece, res.piece] := by
    rw [f.suffix_eq, Resolution.suffix_eq hres, List.append_assoc, List.cons_append,
      List.splitOn_append_cons_self, List.splitOn_append_cons_self, hx,
      List.splitOn_eq_singleton f.dot_not_mem_piece,
      List.splitOn_eq_singleton res.dot_not_mem_piece]
    simp
  rw [processName_window r hsplit, if_pos (eq_ind_or_uni_iff.mpr ⟨res, hres, rfl⟩),
    parseFormat_piece]
  have hind : (if res.piece = lit "ind" then Resolution.individual else .uniform) = res := by
    cases res
    · exact absurd rfl hres
    · exact if_neg (by decide)
    · exact if_pos (by decide)
  simp only [hind, ← hx, List.intercalate_splitOn]

/-- A name without the suffixes of a binary record is kept whole, as text. -/
theorem processName_plain (r : Record) (hf : r.format = .uint8) (hr : r.resolution = .text)
    {name : Bytes} (h : ¬HasSuffix name) :
    r.processName name =
      { r with name := r.name ++ name, format := .uint8, resolution := .text } := by
  rcases Nat.lt_or_ge 2 (name.splitOn dot).length with hlen | hlen
  · obtain ⟨init, a, b, c, hs⟩ := exists_eq_append_three hlen
    rw [processName_window r hs]
    by_cases hc : c = lit "ind" ∨ c = lit "uni"
    · rw [if_pos hc]
      rcases hb : parseFormat b with _ | f
      · rfl
      · -- The last two pieces are the suffixes of a binary record.
        obtain ⟨res, hres, rfl⟩ := eq_ind_or_uni_iff.mp hc
        refine absurd ⟨[dot].intercalate (init ++ [a]), f, res, hres, ?_⟩ h
        have hjoin : [dot].intercalate (name.splitOn dot) = name := List.intercalate_splitOn dot
        rw [← hjoin, hs, eq_piece_of_parseFormat hb,
          f.suffix_eq, Resolution.suffix_eq hres,
          show init ++ [a, f.piece, res.piece] = init ++ [a] ++ [f.piece] ++ [res.piece] by simp,
          intercalate_concat_eq_flatMap, intercalate_concat_eq_flatMap]
        simp
    · rw [if_neg hc]
  · rw [processName_short r hlen, ← hf, ← hr]

/-- Printing the name fields of a parsed name gives the name back. -/
theorem fullName_processName (r : Record) (hn : r.name = []) (hf : r.format = .uint8)
    (hr : r.resolution = .text) (name : Bytes) : (r.processName name).fullName = name := by
  by_cases h : HasSuffix name
  · obtain ⟨x, f, res, hres, rfl⟩ := h
    rw [processName_suffix r x f hres]
    simp [fullName, hn, hres]
  · rw [processName_plain r hf hr h]
    simp [fullName, hn, Resolution.suffix]

/-- Parsing what `fullName` prints gives the name fields back, unless a text name reads as that of
a binary record or its format is not the default one, which the path does not show. -/
theorem processName_fullName (r s : Record) (hn : r.name = []) (hf : r.format = .uint8)
    (hr : r.resolution = .text) (htext : s.resolution = .text → s.format = .uint8 ∧ ¬HasSuffix s.name) :
    r.processName s.fullName =
      { r with name := s.name, format := s.format, resolution := s.resolution } := by
  by_cases hs : s.resolution = .text
  · obtain ⟨hsf, hsn⟩ := htext hs
    rw [show s.fullName = s.name by simp [fullName, hs, Resolution.suffix],
      processName_plain r hf hr hsn, hn, hs, hsf]
    simp
  · rw [show s.fullName = s.name ++ s.format.suffix ++ s.resolution.suffix by simp [fullName, hs],
      processName_suffix r _ _ hs, hn]
    simp

end Record

end Libgetar
