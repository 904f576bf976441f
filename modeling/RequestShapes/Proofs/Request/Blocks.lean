import RequestShapes.Proofs.Request.Scanning

/-!
# Rows of blocks

A block whose braces balance is closed where its text ends. In a row of such
blocks the first block of a name is found behind the blocks of other names, and
all blocks of a name are found if the row has no others.
-/

namespace RequestShapes.Request

open Text

/-! ## Balanced texts -/

/-- The braces of a text balance. -/
structure Balanced (text : List Char) : Prop where
  /-- On the way no brace is closed that was not opened. -/
  opened : ∀ front, front <+: text → front.count '}' ≤ front.count '{'
  /-- At the end all that were opened are closed. -/
  settled : text.count '}' = text.count '{'

instance (text : List Char) : Decidable (Balanced text) :=
  decidable_of_iff
    ((∀ front ∈ text.inits, front.count '}' ≤ front.count '{') ∧ text.count '}' = text.count '{')
    ⟨fun h => ⟨fun front hfront => h.1 front ((List.mem_inits _ _).mpr hfront), h.2⟩,
      fun h => ⟨fun front hfront => h.opened front ((List.mem_inits _ _).mp hfront), h.settled⟩⟩

section Balanced

variable {text later : List Char}

theorem Braceless.balanced (h : Braceless text) : Balanced text where
  opened := by
    intro front hfront
    have hclose : '}' ∉ front := fun hmem => h.2 (hfront.subset hmem)
    simp [List.count_eq_zero.mpr hclose]
  settled := by rw [List.count_eq_zero.mpr h.1, List.count_eq_zero.mpr h.2]

theorem Balanced.append (htext : Balanced text) (hlater : Balanced later) :
    Balanced (text ++ later) where
  opened := by
    intro front hfront
    obtain hin | ⟨tail, -, htail, rfl⟩ := prefix_append_cases hfront
    · exact htext.opened front hin
    · have htotal := htext.settled
      have hle := hlater.opened tail htail
      simp only [List.count_append]
      omega
  settled := by simp only [List.count_append, htext.settled, hlater.settled]

theorem Balanced.braced (h : Balanced text) : Balanced ('{' :: (text ++ ['}'])) where
  opened := by
    intro front hfront
    cases front with
    | nil => exact Nat.le_refl 0
    | cons c front =>
        obtain ⟨rfl, hrest⟩ := List.cons_prefix_cons.mp hfront
        obtain hin | ⟨tail, -, htail, rfl⟩ := prefix_append_cases hrest
        · have hle := h.opened front hin
          simp only [List.count_cons]
          simp
          omega
        · -- The last brace closes the one in front.
          have hle := htail.count_le '}'
          have htotal := h.settled
          simp only [List.count_cons, List.count_append] at hle ⊢
          simp at hle ⊢
          omega
  settled := by simp [h.settled]

/-- Where a text closes what it opens and as many braces more as are open, the
brace after it is the closing one. -/
theorem close?_append_self {depth : Nat} (rest : List Char)
    (hfront : ∀ front, front <+: text → front.count '}' ≤ depth + front.count '{')
    (htext : text.count '}' = depth + text.count '{') :
    close? depth (text ++ '}' :: rest) = some (text, rest) := by
  -- A brace moves the depth by one, and the two counts move with it.
  induction text generalizing depth with
  | nil =>
      obtain rfl : depth = 0 := by simpa using htext.symm
      rfl
  | cons c text ih =>
      have hcons : ∀ front, front <+: text →
          (c :: front).count '}' ≤ depth + (c :: front).count '{' :=
        fun front hin => hfront _ ((List.prefix_cons_inj c).mpr hin)
      by_cases hopen : c = '{'
      · subst hopen
        have hrest : close? (depth + 1) (text ++ '}' :: rest) = some (text, rest) := ih
          (fun front hin => by have := hcons front hin; simp at this; omega)
          (by simp at htext; omega)
        simp [close?, hrest]
      · by_cases hclose : c = '}'
        · subst hclose
          cases depth with
          | zero => simpa using hcons [] (List.nil_prefix)
          | succ depth =>
              have hrest : close? depth (text ++ '}' :: rest) = some (text, rest) := ih
                (fun front hin => by have := hcons front hin; simp at this; omega)
                (by simp at htext; omega)
              simp [close?, hrest]
        · have hrest : close? depth (text ++ '}' :: rest) = some (text, rest) := ih
            (fun front hin => by simpa [hopen, hclose] using hcons front hin)
            (by simpa [hopen, hclose] using htext)
          simp [close?, hrest, hclose]

theorem Balanced.close?_eq (h : Balanced text) (rest : List Char) :
    close? 0 (text ++ '}' :: rest) = some (text, rest) := by
  apply close?_append_self
  · intro front hfront
    simpa using h.opened front hfront
  · simpa using h.settled

end Balanced

/-! ## Rows of blocks -/

/-- The text of a block, together with what stands before it. -/
def Block.text (block : Block) : List Char :=
  block.before ++ (block.header ++ (block.body ++ ['}']))

/-- A block is found where it stands: what stands before it has no part of its
name and does not join it, and its braces balance. -/
structure Block.Standing (name : List Char) (block : Block) : Prop where
  gap : clashes name block.before = true
  edge : mayPrecede block.before.getLast? = true
  header : IsHeader name block.header
  body : Balanced block.body

section Rows

variable {name rest : List Char} {previous : Option Char} {block : Block}

theorem firstBlock?_absent {piece : List Char} (h : Absent (header? name) piece rest) :
    firstBlock? name previous (piece ++ rest) =
      (firstBlock? name (piece.getLast?.or previous) rest).map fun found =>
        ({ found.1 with before := piece ++ found.1.before }, found.2) := by
  induction piece generalizing previous with
  | nil => simp
  | cons c piece ih =>
      rw [List.cons_append, firstBlock?, h.1, ite_self, ih h.2, List.getLast?_cons]
      cases piece.getLast? <;> simp [Function.comp_def]

theorem mayPrecede_or {last : Option Char} (hlast : mayPrecede last = true)
    (hprevious : mayPrecede previous = true) : mayPrecede (last.or previous) = true := by
  cases last with
  | none => exact hprevious
  | some c => exact hlast

/-- The first block is the one that begins a text. -/
theorem firstBlock?_text (h : block.Standing name) (hprevious : mayPrecede previous = true) :
    firstBlock? name previous (block.text ++ rest) = some (block, rest) := by
  have hfound := header?_append_self h.header (block.body ++ '}' :: rest)
  have hgap : Absent (header? name) block.before
      (block.header ++ (block.body ++ '}' :: rest)) :=
    (absent_of_clashes h.gap _).mono fun _ => header?_of_after?
  have htext : block.text ++ rest =
      block.before ++ (block.header ++ (block.body ++ '}' :: rest)) := by
    simp [Block.text]
  rw [htext, firstBlock?_absent hgap]
  -- The search looks at a first character, so the header is taken apart.
  obtain ⟨c, header, hheader⟩ : ∃ c header, block.header = c :: header := by
    obtain ⟨gap, colon, tail, heq, -⟩ := h.header
    exact List.exists_cons_of_ne_nil (by simp [heq])
  rw [hheader, List.cons_append] at hfound ⊢
  rw [firstBlock?, if_pos (mayPrecede_or h.edge hprevious), hfound]
  simp [h.body.close?_eq, ← hheader]

theorem absent_flatMap {blocks : List Block}
    (h : ∀ block ∈ blocks, ∀ rest, Absent (header? name) block.text rest) (rest : List Char) :
    Absent (header? name) (blocks.flatMap Block.text) rest := by
  induction blocks with
  | nil => trivial
  | cons block blocks ih =>
      obtain ⟨hblock, hblocks⟩ := List.forall_mem_cons.mp h
      exact absent_append.mpr ⟨hblock _, ih hblocks⟩

theorem getLast?_text (block : Block) : block.text.getLast? = some '}' := by
  rw [Block.text, ← List.append_assoc, ← List.append_assoc, List.getLast?_concat]

theorem mayPrecede_brace : mayPrecede (some '}') = true := by
  decide

/-- The first block of a name is found behind the blocks of other names. -/
theorem firstBlock?_row {skipped : List Block}
    (hskipped : ∀ other ∈ skipped, ∀ rest, Absent (header? name) other.text rest)
    (h : block.Standing name) (hprevious : mayPrecede previous = true) :
    firstBlock? name previous (skipped.flatMap Block.text ++ (block.text ++ rest)) =
      some ({ block with before := skipped.flatMap Block.text ++ block.before }, rest) := by
  induction skipped generalizing previous with
  | nil => simpa using firstBlock?_text h hprevious
  | cons other skipped ih =>
      obtain ⟨hother, hskipped⟩ := List.forall_mem_cons.mp hskipped
      rw [List.flatMap_cons, List.append_assoc, firstBlock?_absent (hother _), getLast?_text,
        Option.some_or, ih hskipped mayPrecede_brace]
      simp

theorem body?_row {title : String} {skipped later : List Block}
    (hskipped : ∀ other ∈ skipped, ∀ rest, Absent (header? title.toList) other.text rest)
    (h : block.Standing title.toList) (rest : List Char) :
    body? title ((skipped ++ block :: later).flatMap Block.text ++ rest) = some block.body := by
  rw [List.flatMap_append, List.flatMap_cons, List.append_assoc, List.append_assoc, body?,
    firstBlock?_row hskipped h (by decide)]
  rfl

theorem blocksFrom_of_none {text : List Char} (h : firstBlock? name previous text = none) :
    blocksFrom name previous text = ([], text) := by
  rw [blocksFrom]
  split
  · rfl
  next hfound => rw [h] at hfound; cases hfound

theorem blocksFrom_of_some {text : List Char}
    (h : firstBlock? name previous text = some (block, rest)) :
    blocksFrom name previous text =
      (block :: (blocksFrom name (some '}') rest).1, (blocksFrom name (some '}') rest).2) := by
  rw [blocksFrom]
  split
  next hnone => rw [h] at hnone; cases hnone
  next hfound =>
    rw [h] at hfound
    cases hfound
    rfl

/-- The blocks of a row are found, each with what stands before it. -/
theorem blocksFrom_row {blocks : List Block} (h : ∀ block ∈ blocks, block.Standing name)
    (hlast : Absent (header? name) rest []) (hprevious : mayPrecede previous = true) :
    blocksFrom name previous (blocks.flatMap Block.text ++ rest) = (blocks, rest) := by
  induction blocks generalizing previous with
  | nil =>
      apply blocksFrom_of_none
      rw [List.flatMap_nil, List.nil_append, ← List.append_nil rest, firstBlock?_absent hlast]
      rfl
  | cons block blocks ih =>
      obtain ⟨hblock, hblocks⟩ := List.forall_mem_cons.mp h
      rw [List.flatMap_cons, List.append_assoc,
        blocksFrom_of_some (firstBlock?_text hblock hprevious), ih hblocks mayPrecede_brace]

/-- What is passed over before a row changes no body, and stays when the blocks
are left out. -/
theorem blocksFrom_absent {piece : List Char} (h : Absent (header? name) piece rest) :
    (blocksFrom name previous (piece ++ rest)).1.map Block.body =
        (blocksFrom name (piece.getLast?.or previous) rest).1.map Block.body ∧
      (blocksFrom name previous (piece ++ rest)).1.flatMap Block.before ++
          (blocksFrom name previous (piece ++ rest)).2 =
        piece ++ ((blocksFrom name (piece.getLast?.or previous) rest).1.flatMap Block.before ++
          (blocksFrom name (piece.getLast?.or previous) rest).2) := by
  have hfirst := @firstBlock?_absent _ _ previous _ h
  cases hfound : firstBlock? name (piece.getLast?.or previous) rest with
  | none =>
      rw [hfound] at hfirst
      rw [blocksFrom_of_none hfirst, blocksFrom_of_none hfound]
      simp
  | some found =>
      rw [hfound] at hfirst
      rw [blocksFrom_of_some hfirst, @blocksFrom_of_some _ found.2 _ found.1 _ hfound]
      simp

end Rows

/-! ## Titled blocks -/

/-- The colon that may follow the name of a block. -/
def marks : List String := ["", ":"]

/-- The block of a name, written behind a gap. -/
def titled (gap title mark : String) (body : List Char) : Block :=
  ⟨gap.toList, title.toList ++ (mark.toList ++ [' ', '{']), body⟩

section Titled

variable {gap title mark : String} {body name : List Char}

theorem standing_titled (hgap : clashes title.toList gap.toList = true)
    (hedge : mayPrecede gap.toList.getLast? = true) (hmark : mark ∈ marks)
    (hbody : Balanced body) : (titled gap title mark body).Standing title.toList where
  gap := hgap
  edge := hedge
  header := by
    obtain rfl | rfl := List.mem_pair.mp hmark
    · exact ⟨[' '], [], [], rfl, forall_mem_of_all (by decide), .inl rfl,
        forall_mem_of_all (by decide)⟩
    · exact ⟨[], [':'], [' '], rfl, forall_mem_of_all (by decide), .inr rfl,
        forall_mem_of_all (by decide)⟩
  body := hbody

/-- The braces of a titled block balance if those of its body do. -/
theorem balanced_titled (hgap : Braceless gap.toList) (htitle : Braceless title.toList)
    (hmark : mark ∈ marks) (hbody : Balanced body) :
    Balanced (titled gap title mark body).text := by
  have hbraceless : ∀ mark ∈ marks, Braceless (mark.toList ++ [' ']) := by decide
  have hopening := (hbraceless mark hmark).balanced.append hbody.braced
  simpa [Block.text, titled] using hgap.balanced.append (htitle.balanced.append hopening)

/-- A titled block is passed over in the search for another name, if that name
has no header up to the block's brace and none in its body. -/
theorem absent_titled (hname : Braceless name)
    (hheader : HeaderFree name (gap.toList ++ (title.toList ++ (mark.toList ++ [' ', '{']))))
    (hbody : HeaderFree name body) (rest : List Char) :
    Absent (header? name) (titled gap title mark body).text rest := by
  have hfront : gap.toList ++ (title.toList ++ (mark.toList ++ [' ', '{'])) =
      gap.toList ++ (title.toList ++ (mark.toList ++ [' '])) ++ ['{'] := by
    simp
  rw [hfront] at hheader
  have hopen := hheader.absent hname (by decide) (body ++ ['}'] ++ rest)
  have hclose : Absent (header? name) (body ++ ['}']) rest :=
    (hbody.append_of_not_mem hname (by decide)).absent hname (by decide) rest
  rw [← hfront] at hopen
  simpa only [Block.text, titled, List.append_assoc] using absent_append.mpr ⟨hopen, hclose⟩

/-! ## A block alone -/

/-- A text that is one titled block. -/
def alone (title : String) (body : List Char) : List Char :=
  (titled "" title "" body).text

theorem body?_alone (hbody : Balanced body) : body? title (alone title body) = some body := by
  have hstanding : (titled "" title "" body).Standing title.toList :=
    standing_titled (by simp [clashes]) (by decide) (by decide) hbody
  have hrow := @body?_row _ title [] [] (by simp) hstanding []
  simpa [alone, titled] using hrow

theorem firstBlock?_alone {previous : Option Char} (hname : Braceless name)
    (hheader : HeaderFree name (title.toList ++ [' ', '{'])) (hbody : HeaderFree name body) :
    firstBlock? name previous (alone title body) = none := by
  have habsent : Absent (header? name) (alone title body) [] :=
    absent_titled hname (by simpa using hheader) hbody []
  have hfirst := @firstBlock?_absent name [] previous _ habsent
  rw [List.append_nil] at hfirst
  rw [hfirst]
  rfl

/-- A block alone has no other blocks, and nothing is left out of it. -/
theorem blocksFrom_alone {previous : Option Char} (hname : Braceless name)
    (hheader : HeaderFree name (title.toList ++ [' ', '{'])) (hbody : HeaderFree name body) :
    blocksFrom name previous (alone title body) = ([], alone title body) :=
  blocksFrom_of_none (firstBlock?_alone hname hheader hbody)

end Titled

end RequestShapes.Request
