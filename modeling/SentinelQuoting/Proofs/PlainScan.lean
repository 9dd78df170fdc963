import SentinelQuoting.Pass
import SentinelQuoting.Proofs.Compaction

/-! # Compaction is a plain scan

With a buffer of its own for the result, the removal of null marks needs one position and moves
nothing (`scanInto`). Which bytes it leaves out can also be told from where they stand, without a
scan: a position is guarded when the byte before it is an escape mark that is not guarded itself,
and only the null marks that are not guarded go (`withoutExposedNulls`). -/
namespace SentinelQuoting
set_option autoImplicit false

/-! ## The scan -/

/-- Read `s` from position `i` on, and add what is kept to `out`: a mark with the character after
it, if there is one, or a character that is no null mark. -/
def scanInto (s : Bytes) (i : Nat) (out : Bytes) : Bytes :=
  if h : i < s.length then
    if s[i] = escapeMark then
      scanInto s (i + 1 + widthAt s (i + 1))
        (out ++ escapeMark :: (s.drop (i + 1)).take (widthAt s (i + 1)))
    else if s[i] = nullMark then scanInto s (i + 1) out
    else scanInto s (i + widthAt s i) (out ++ (s.drop i).take (widthAt s i))
  else out
termination_by s.length - i
decreasing_by
  · omega
  · omega
  · have hw := widthAt_pos h
    omega

theorem dropNulls_mark (rest : Bytes) :
    dropNulls (escapeMark :: rest) =
      escapeMark :: rest.take (width rest) ++ dropNulls (rest.drop (width rest)) := by
  obtain ⟨hkept, hclosed⟩ := Compaction.kept_mark rest
  by_cases hrest : rest = []
  · subst hrest
    rfl
  · conv => lhs; rw [← List.take_append_drop (width rest) rest, ← List.cons_append]
    rw [dropNulls_append (hclosed hrest), hkept]

/-- No byte of a character that starts with another byte is a sentinel. -/
theorem dropNulls_character {b : UInt8} (hmark : b ≠ escapeMark) (hnull : b ≠ nullMark)
    (rest : Bytes) :
    dropNulls (b :: rest) =
      (b :: rest).take (width (b :: rest)) ++ dropNulls ((b :: rest).drop (width (b :: rest))) := by
  have hhigh : ∀ x ∈ rest.take (tailLength b rest), 0x80 ≤ x := fun x hx => high_of_mem_tail hx
  have hno : ∀ m : UInt8, m ≠ b → ¬ 0x80 ≤ m → m ∉ (b :: rest).take (width (b :: rest)) := by
    intro m hm hlow hmem
    rw [width, List.take_succ_cons] at hmem
    rcases List.mem_cons.mp hmem with he | hmem
    · exact hm he
    · exact hlow (hhigh m hmem)
  conv => lhs; rw [← List.take_append_drop (width (b :: rest)) (b :: rest)]
  rw [dropNulls_append (closed_of_no_mark (hno escapeMark hmark.symm (by decide))),
    dropNulls_of_no_null (hno nullMark hnull.symm (by decide))]

theorem scanInto_eq (s : Bytes) (i : Nat) (out : Bytes) :
    scanInto s i out = out ++ dropNulls (s.drop i) := by
  induction i, out using scanInto.induct s with
  | case1 i out h hmark ih =>
    rw [scanInto, dif_pos h, if_pos hmark, ih, List.drop_eq_getElem_cons h, hmark, dropNulls_mark,
      List.append_assoc, widthAt, List.drop_drop]
  | case2 i out h hmark hnull ih =>
    rw [scanInto, dif_pos h, if_neg hmark, if_pos hnull, ih, List.drop_eq_getElem_cons h, hnull,
      dropNulls_bare (by decide), if_pos rfl, List.nil_append]
  | case3 i out h hmark hnull ih =>
    rw [scanInto, dif_pos h, if_neg hmark, if_neg hnull, ih, ← List.drop_drop, widthAt,
      List.drop_eq_getElem_cons h, dropNulls_character hmark hnull, List.append_assoc]
  | case4 i out h =>
    rw [scanInto, dif_neg h, List.drop_of_length_le (by omega)]
    exact (List.append_nil out).symm

/-! ## Guarded positions -/

/-- Whether the byte at a position stands right after an escape mark that is not guarded itself. -/
def isGuarded (s : Bytes) : Nat → Bool
  | 0 => false
  | i + 1 => s[i]? == some escapeMark && !isGuarded s i

theorem isGuarded_bare {b : UInt8} (h : b ≠ escapeMark) (rest : Bytes) (i : Nat) :
    isGuarded (b :: rest) (i + 1) = isGuarded rest i := by
  induction i with
  | zero => simp [isGuarded, h]
  | succ i ih => rw [isGuarded, ih, List.getElem?_cons_succ, isGuarded]

theorem isGuarded_mark (b : UInt8) (rest : Bytes) (i : Nat) :
    isGuarded (escapeMark :: b :: rest) (i + 2) = isGuarded rest i := by
  induction i with
  | zero => simp [isGuarded]
  | succ i ih => rw [isGuarded, ih, List.getElem?_cons_succ, List.getElem?_cons_succ, isGuarded]

/-- Whether a byte, given with its position, is a null mark that nothing protects. -/
def isExposedNull (s : Bytes) (x : UInt8 × Nat) : Bool := x.1 == nullMark && !isGuarded s x.2

/-- The bytes in their order, without the null marks that nothing protects. -/
def withoutExposedNulls (s : Bytes) : Bytes :=
  (s.zipIdx.filter fun x => !isExposedNull s x).map Prod.fst

theorem map_fst_filter_zipIdx_cons (keep : UInt8 × Nat → Bool) (b : UInt8) (rest : Bytes) :
    (((b :: rest).zipIdx.filter keep).map Prod.fst) =
      (if keep (b, 0) then [b] else []) ++
        (rest.zipIdx.filter fun x => keep (x.1, x.2 + 1)).map Prod.fst := by
  rw [List.zipIdx_cons, List.zipIdx_succ, List.filter_cons, List.filter_map]
  split <;> simp [Function.comp_def]

theorem withoutExposedNulls_guarded (b : UInt8) (rest : Bytes) :
    withoutExposedNulls (escapeMark :: b :: rest) = escapeMark :: b :: withoutExposedNulls rest := by
  have hmark : isExposedNull (escapeMark :: b :: rest) (escapeMark, 0) = false := rfl
  have hbyte : isExposedNull (escapeMark :: b :: rest) (b, 1) = false := by
    simp [isExposedNull, isGuarded]
  have hrest : ∀ x : UInt8 × Nat,
      isExposedNull (escapeMark :: b :: rest) (x.1, x.2 + 1 + 1) = isExposedNull rest x := by
    intro x
    rw [isExposedNull, isGuarded_mark, isExposedNull]
  unfold withoutExposedNulls
  rw [map_fst_filter_zipIdx_cons, map_fst_filter_zipIdx_cons, hmark, hbyte]
  simp only [hrest]
  rfl

theorem withoutExposedNulls_bare {b : UInt8} (h : b ≠ escapeMark) (rest : Bytes) :
    withoutExposedNulls (b :: rest) =
      (if b = nullMark then [] else [b]) ++ withoutExposedNulls rest := by
  have hbyte : isExposedNull (b :: rest) (b, 0) = (b == nullMark) := by
    simp [isExposedNull, isGuarded]
  have hrest : ∀ x : UInt8 × Nat,
      isExposedNull (b :: rest) (x.1, x.2 + 1) = isExposedNull rest x := by
    intro x
    rw [isExposedNull, isGuarded_bare h, isExposedNull]
  unfold withoutExposedNulls
  rw [map_fst_filter_zipIdx_cons, hbyte]
  simp only [hrest]
  by_cases hnull : b = nullMark <;> simp [hnull]

theorem dropNulls_eq_withoutExposedNulls (s : Bytes) : dropNulls s = withoutExposedNulls s := by
  induction s using reading_induction with
  | nil => rfl
  | dangling => rfl
  | guarded b rest ih => rw [dropNulls_guarded, withoutExposedNulls_guarded, ih]
  | bare b rest hb ih => rw [dropNulls_bare hb, withoutExposedNulls_bare hb, ih]

/-- Compaction of a buffer succeeds and leaves in it what the plain scan writes: the bytes of the
buffer in their order, without the null marks that nothing protects. -/
theorem compact_eq_scanInto (s : Bytes) :
    (∀ ifs : Separators, (⟨.growable, s⟩ : Stored).applyInPlace .dropNulls ifs =
      .ok ⟨.growable, scanInto s 0 []⟩) ∧
    compact s = scanInto s 0 [] ∧ compact s = withoutExposedNulls s := by
  have hscan : compact s = scanInto s 0 [] := by
    rw [compact_eq_dropNulls, scanInto_eq]
    rfl
  refine ⟨fun ifs => ?_, hscan, ?_⟩
  · rw [← hscan]
    rfl
  · rw [compact_eq_dropNulls, dropNulls_eq_withoutExposedNulls]

end SentinelQuoting
