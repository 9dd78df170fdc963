import Mathlib.Data.List.Infix
import SentinelQuoting.Protection.Piece

/-! # Reading a text by its bytes

The passes read a text by characters. What they do can be told from the bytes alone: only the first
byte of a character decides, and the bytes after it are high, so none of them is a sentinel or a
space. `reading` is the text cut into pieces of single bytes; `flatMap_pieces_characters` says that
a rule which copies the tail of a character gives the same result on both. A text that leaves no
mark open (`Closed`) is read without regard to what follows it (`reading_append`). -/
namespace SentinelQuoting
set_option autoImplicit false

/-! ## The bytes after the first -/

theorem isContinuation_of_completes {lead : UInt8} {tail : Bytes}
    (h : completes lead tail = true) : ∀ b ∈ tail, isContinuation b = true := by
  cases tail with
  | nil => simp
  | cons second others =>
    simp only [completes, Bool.and_eq_true, allowsSecond, decide_eq_true_eq, List.all_eq_true] at h
    obtain ⟨⟨hlow, hhigh⟩, hothers⟩ := h
    have hrange : 0x80 ≤ (secondRange lead).1 ∧ (secondRange lead).2 ≤ 0xbf := by
      unfold secondRange
      repeat' split
      all_goals decide
    have hsecond : isContinuation second = true := by
      rw [isContinuation, Bool.and_eq_true, decide_eq_true_eq, decide_eq_true_eq]
      exact ⟨UInt8.le_trans hrange.1 hlow, UInt8.le_trans hhigh hrange.2⟩
    exact List.forall_mem_cons.mpr ⟨hsecond, hothers⟩

theorem isContinuation_of_mem_tail {lead b : UInt8} {rest : Bytes}
    (h : b ∈ rest.take (tailLength lead rest)) : isContinuation b = true := by
  simp only [tailLength] at h
  split at h
  · rename_i hc
    rw [hc.1] at h
    exact isContinuation_of_completes hc.2 b h
  · simp at h

theorem high_of_mem_tail {lead b : UInt8} {rest : Bytes}
    (h : b ∈ rest.take (tailLength lead rest)) : 0x80 ≤ b := by
  have hb := isContinuation_of_mem_tail h
  rw [isContinuation, Bool.and_eq_true, decide_eq_true_eq] at hb
  exact hb.1

theorem high_of_tailLength_pos {lead : UInt8} {rest : Bytes} (h : 0 < tailLength lead rest) :
    0x80 ≤ lead := by
  by_contra hlow
  have hle : lead ≤ 0x7f := by
    have h80 : lead.toNat < 128 := by simpa [UInt8.le_iff_toNat_le] using hlow
    rw [UInt8.le_iff_toNat_le]
    exact Nat.le_of_lt_succ h80
  have hzero : tailLength lead rest = 0 := tailLength_eq_zero (by simp [leadLength, hle]) rest
  omega

theorem ne_of_high {b c : UInt8} (h : 0x80 ≤ b) (hc : ¬ 0x80 ≤ c) : b ≠ c := by
  rintro rfl
  exact hc h

/-- What every character of a text is like: its tail is high, and only a high byte has one. -/
structure Character.Sound (c : Character) : Prop where
  tail_high : ∀ b ∈ c.tail, 0x80 ≤ b
  lead_high : c.tail ≠ [] → 0x80 ≤ c.lead

theorem Character.Sound.tail_eq_nil {c : Character} (h : c.Sound) (hlow : ¬ 0x80 ≤ c.lead) :
    c.tail = [] := by
  by_contra hne
  exact hlow (h.lead_high hne)

theorem sound_of_mem_charactersAfter {skip : Nat} {s : Bytes} {c : Character}
    (h : c ∈ charactersAfter skip s) : c.Sound := by
  induction s generalizing skip with
  | nil => cases skip <;> simp [charactersAfter] at h
  | cons lead rest ih =>
    cases skip with
    | succ skip => exact ih h
    | zero =>
      rcases List.mem_cons.mp h with rfl | h
      · refine ⟨fun b hb => high_of_mem_tail hb, fun hne => ?_⟩
        have hpos : 0 < tailLength lead rest := by
          apply Nat.pos_of_ne_zero
          intro hzero
          exact hne (by rw [hzero, List.take_zero])
        exact high_of_tailLength_pos hpos
      · exact ih h

theorem sound_of_mem_characters {s : Bytes} {c : Character} (h : c ∈ characters s) : c.Sound :=
  sound_of_mem_charactersAfter h

/-! ## Reading -/

/-- A text cut into pieces of single bytes. -/
def reading (s : Bytes) : List Piece := pieces (octets s)

@[simp] theorem reading_nil : reading [] = [] := rfl

@[simp] theorem reading_mark : reading [escapeMark] = [.dangling] := rfl

@[simp] theorem reading_guarded (b : UInt8) (rest : Bytes) :
    reading (escapeMark :: b :: rest) = .guarded (.single b) :: reading rest := rfl

@[simp] theorem reading_bare {b : UInt8} (h : b ≠ escapeMark) (rest : Bytes) :
    reading (b :: rest) = .bare (.single b) :: reading rest := by
  unfold reading octets
  rw [List.map_cons, pieces_bare]
  simp [Character.isEscape, Character.single, h]

/-- Induction along the reading of a text. -/
@[elab_as_elim] theorem reading_induction {motive : Bytes → Prop} (nil : motive [])
    (dangling : motive [escapeMark])
    (guarded : ∀ b rest, motive rest → motive (escapeMark :: b :: rest))
    (bare : ∀ b rest, b ≠ escapeMark → motive rest → motive (b :: rest)) :
    ∀ s, motive s
  | [] => nil
  | [b] => by
    by_cases h : b = escapeMark
    · rw [h]
      exact dangling
    · exact bare b [] h nil
  | b :: c :: rest => by
    by_cases h : b = escapeMark
    · rw [h]
      exact guarded c rest (reading_induction nil dangling guarded bare rest)
    · exact bare b (c :: rest) h (reading_induction nil dangling guarded bare (c :: rest))

theorem reading_append_of_no_mark {a : Bytes} (h : escapeMark ∉ a) (b : Bytes) :
    reading (a ++ b) = a.map (fun x => .bare (.single x)) ++ reading b := by
  induction a with
  | nil => rfl
  | cons x a ih =>
    have hx : x ≠ escapeMark := fun e => h (by simp [e])
    have ha : escapeMark ∉ a := fun hm => h (List.mem_cons_of_mem x hm)
    rw [List.cons_append, reading_bare hx, ih ha, List.map_cons, List.cons_append]

theorem reading_of_no_mark {s : Bytes} (h : escapeMark ∉ s) :
    reading s = s.map fun x => .bare (.single x) := by
  have ha := reading_append_of_no_mark h []
  rwa [List.append_nil, reading_nil, List.append_nil] at ha

/-! ## Texts that leave no mark open -/

/-- Every mark of the text protects something in it. -/
def Closed (s : Bytes) : Prop := Piece.dangling ∉ reading s

@[simp] theorem closed_nil : Closed [] := List.not_mem_nil

@[simp] theorem not_closed_mark : ¬ Closed [escapeMark] := by
  simp [Closed]

@[simp] theorem closed_guarded (b : UInt8) (rest : Bytes) :
    Closed (escapeMark :: b :: rest) ↔ Closed rest := by
  simp [Closed]

theorem closed_bare {b : UInt8} (h : b ≠ escapeMark) (rest : Bytes) :
    Closed (b :: rest) ↔ Closed rest := by
  simp [Closed, h]

theorem closed_of_no_mark {s : Bytes} (h : escapeMark ∉ s) : Closed s := by
  unfold Closed
  rw [reading_of_no_mark h]
  simp

theorem reading_append {a : Bytes} (h : Closed a) (b : Bytes) :
    reading (a ++ b) = reading a ++ reading b := by
  induction a using reading_induction with
  | nil => rfl
  | dangling => exact absurd h not_closed_mark
  | guarded x rest ih =>
    have hrest : Closed rest := (closed_guarded x rest).mp h
    rw [List.cons_append, List.cons_append, reading_guarded, reading_guarded, ih hrest,
      List.cons_append]
  | bare x rest hx ih =>
    have hrest : Closed rest := (closed_bare hx rest).mp h
    rw [List.cons_append, reading_bare hx, reading_bare hx, ih hrest, List.cons_append]

theorem Closed.append {a b : Bytes} (ha : Closed a) (hb : Closed b) : Closed (a ++ b) := by
  unfold Closed
  rw [reading_append ha, List.mem_append, not_or]
  exact ⟨ha, hb⟩

/-! ## Characters and bytes -/

/-- A rule for pieces that looks at the first byte of a character and copies the others. -/
structure CopiesTail (f : Piece → Bytes) : Prop where
  bare : ∀ c : Character, c.Sound → f (.bare c) = f (.bare (.single c.lead)) ++ c.tail
  guarded : ∀ c : Character, f (.guarded c) = f (.guarded (.single c.lead)) ++ c.tail
  high : ∀ b : UInt8, 0x80 ≤ b → f (.bare (.single b)) = [b]

theorem CopiesTail.flatMap_high {f : Piece → Bytes} (hf : CopiesTail f) {tail : Bytes}
    (h : ∀ b ∈ tail, 0x80 ≤ b) (rest : Bytes) :
    (reading (tail ++ rest)).flatMap f = tail ++ (reading rest).flatMap f := by
  have hmark : escapeMark ∉ tail := fun hm => ne_of_high (h _ hm) (by decide) rfl
  rw [reading_append_of_no_mark hmark, List.flatMap_append, List.flatMap_map]
  congr 1
  calc tail.flatMap (fun x => f (.bare (.single x))) = tail.flatMap (fun x => [x]) :=
        List.flatMap_congr fun b hb => hf.high b (h b hb)
    _ = tail := by simp

theorem CopiesTail.flatMap_bare {f : Piece → Bytes} (hf : CopiesTail f) {c : Character}
    (hs : c.Sound) (he : c.lead ≠ escapeMark) (rest : Bytes) :
    (reading (c.bytes ++ rest)).flatMap f = f (.bare c) ++ (reading rest).flatMap f := by
  unfold Character.bytes
  rw [List.cons_append, reading_bare he, List.flatMap_cons, hf.flatMap_high hs.tail_high,
    hf.bare c hs, List.append_assoc]

theorem CopiesTail.flatMap_guarded {f : Piece → Bytes} (hf : CopiesTail f) {c : Character}
    (hs : c.Sound) (rest : Bytes) :
    (reading (escapeMark :: (c.bytes ++ rest))).flatMap f =
      f (.guarded c) ++ (reading rest).flatMap f := by
  unfold Character.bytes
  rw [List.cons_append, reading_guarded, List.flatMap_cons, hf.flatMap_high hs.tail_high,
    hf.guarded c, List.append_assoc]

theorem Character.Sound.bytes_of_isEscape {c : Character} (hs : c.Sound)
    (he : c.isEscape = true) : c.bytes = [escapeMark] := by
  have hlead : c.lead = escapeMark := by simpa [Character.isEscape] using he
  have htail : c.tail = [] := hs.tail_eq_nil (by rw [hlead]; decide)
  rw [Character.bytes, hlead, htail]

/-- The characters are those of a text, so a mark among them is a byte of its own and what it
protects keeps its tail in either reading. -/
theorem flatMap_pieces {f : Piece → Bytes} (hf : CopiesTail f) (cs : List Character)
    (h : ∀ c ∈ cs, c.Sound) :
    (pieces cs).flatMap f = (reading (cs.flatMap Character.bytes)).flatMap f := by
  induction cs using pieces.induct with
  | case1 => rfl
  | case2 c he =>
    rw [pieces_dangling he, List.flatMap_singleton, List.flatMap_singleton,
      (h c List.mem_cons_self).bytes_of_isEscape he, reading_mark, List.flatMap_singleton]
  | case3 c he =>
    have hlead : c.lead ≠ escapeMark := by simpa [Character.isEscape] using he
    have hb := hf.flatMap_bare (h c List.mem_cons_self) hlead []
    rw [List.append_nil] at hb
    rw [pieces_bare (by simpa using he), List.flatMap_singleton, hb]
    rfl
  | case4 c d rest he ih =>
    have hd : d.Sound := h d (by simp)
    have hrest : ∀ e ∈ rest, e.Sound := fun e hm => h e (by simp [hm])
    rw [pieces_guarded he, List.flatMap_cons, List.flatMap_cons, List.flatMap_cons,
      (h c List.mem_cons_self).bytes_of_isEscape he, List.singleton_append,
      hf.flatMap_guarded hd, ih hrest]
  | case5 c d rest he ih =>
    have hlead : c.lead ≠ escapeMark := by simpa [Character.isEscape] using he
    have hrest : ∀ e ∈ d :: rest, e.Sound := fun e hm => h e (List.mem_cons_of_mem c hm)
    have hbytes : (c :: d :: rest).flatMap Character.bytes =
        c.bytes ++ (d :: rest).flatMap Character.bytes := List.flatMap_cons
    rw [pieces_bare (by simpa using he), List.flatMap_cons, ih hrest, hbytes,
      hf.flatMap_bare (h c List.mem_cons_self) hlead]

theorem flatMap_pieces_characters {f : Piece → Bytes} (hf : CopiesTail f) (s : Bytes) :
    (pieces (characters s)).flatMap f = (reading s).flatMap f := by
  rw [flatMap_pieces hf _ fun c hc => sound_of_mem_characters hc, flatMap_bytes_characters]

end SentinelQuoting
