import StackLisp.Proofs.Text.Word

/-!
# What is printed is read back

Reading the text of a tree gives a value that unfolds to this tree, and goes to
the end of the text: the short forms come back as the lists they stand for, and
dotted tails as tails. It makes one new pair for every node and nothing else, so
it fails only where the heap has no room for them.
-/

namespace StackLisp

namespace Reading

/-- The reader has gone past `text`, has made `n` pairs, and gives a value that
    unfolds to the tree. -/
def Yields (r : Reading) (text rest : List Char) (n : Nat) (t : Tree) (v : Value)
    (r' : Reading) : Prop :=
  ∃ h, r' = r.after text rest h ∧ r.heap.Gains n h ∧ h.Unfolds v t

/-- The text is read as a value that unfolds to the tree. -/
structure ReadsTree (symbols : SymbolTable) (text : List Char) (t : Tree) : Prop where
  begins (rest : List Char) : Begins (text ++ rest)
  reads {r : Reading} {rest : List Char} {fuel : Nat} (enough : 2 * text.length ≤ fuel)
    (known : r.symbols = symbols) (ahead : r.ahead = text ++ rest) (stops : Stops rest) :
    Leads (readForm fuel) r (r.Yields text rest t.pairs t) fun e _ => r.heap.Overflows t.pairs e

/-- After some elements of a list, the text is read as the rest of the list. -/
structure ReadsTail (symbols : SymbolTable) (text : List Char) (d : Tree) : Prop where
  length_pos : 0 < text.length
  stops (rest : List Char) : Stops (text ++ rest)
  reads {r : Reading} {rest : List Char} {fuel : Nat} {before : List Value} {ts : List Tree}
    (enough : 2 * text.length ≤ fuel) (known : r.symbols = symbols) (ahead : r.ahead = text ++ rest)
    (nonempty : before ≠ []) (unfold : r.heap.AllUnfold before ts) :
    Leads (readElements fuel before) r
      (r.Yields text rest (d.pairs + before.length) (ts.reverse.foldr .node d))
      fun e _ => r.heap.Overflows (d.pairs + before.length) e

variable {symbols : SymbolTable} {text texta textd : List Char} {a d t x : Tree} {v : Value}

/-- No form is read of nothing. -/
theorem ReadsTree.length_pos (ht : ReadsTree symbols text t) : 0 < text.length := by
  cases text with
  | nil => exact (ht.begins []).elim
  | cons => exact Nat.succ_pos _

/-- A leaf is read as it is, and takes no pair. -/
theorem readsTree_leaf (hv : ReadsAs symbols text v) (atom : v.isAtom = true) :
    ReadsTree symbols text (.leaf v) where
  begins := hv.begins
  reads {r rest fuel} enough known ahead stops := by
    cases text with
    | nil => exact (hv.begins []).elim
    | cons c cs =>
      obtain ⟨fuel, rfl⟩ : ∃ n, fuel = n + 1 := ⟨fuel - 1, by simp at enough; omega⟩
      rw [leads_of_ok (hv.reads fuel known ahead stops)]
      exact ⟨r.heap, rfl, .refl _, .leaf atom⟩

section

variable {r : Reading} {rest : List Char} {fuel : Nat} {before : List Value} {ts : List Tree}

/-- One more element of a list is read, and then the rest of the list. -/
theorem leads_readElements (ha : ReadsTree symbols texta a) (hd : ReadsTail symbols textd d)
    (enough : 2 * (texta ++ textd).length ≤ fuel) (known : r.symbols = symbols)
    (ahead : r.ahead = texta ++ textd ++ rest) (unfold : r.heap.AllUnfold before ts) :
    Leads (readElements fuel before) r
      (r.Yields (texta ++ textd) rest ((Tree.node a d).pairs + before.length)
        (ts.reverse.foldr .node (.node a d)))
      fun e _ => r.heap.Overflows ((Tree.node a d).pairs + before.length) e := by
  have ha₀ := ha.length_pos
  have hd₀ := hd.length_pos
  have hpairs : (Tree.node a d).pairs + before.length =
      a.pairs + (d.pairs + (before.length + 1)) := by
    rw [Tree.pairs]
    omega
  rw [List.length_append] at enough
  rw [List.append_assoc] at ahead
  obtain ⟨fuel, rfl⟩ : ∃ n, fuel = n + 1 := ⟨fuel - 1, by omega⟩
  -- The text of the head begins with a character that ends no list.
  have hbegins := ha.begins (textd ++ rest)
  obtain ⟨c, cs, hcs⟩ : ∃ c cs, texta ++ (textd ++ rest) = c :: cs :=
    List.exists_cons_of_length_pos (by rw [List.length_append]; omega)
  rw [hcs] at hbegins
  obtain ⟨hlayout, hcomment, hclose, hdot⟩ := hbegins
  rw [readElements, leads_bind, leads_of_ok (skip_eq (ahead.trans hcs) hlayout hcomment),
    leads_bind, leads_get, ahead.trans hcs, hpairs]
  split
  · next heq => cases heq
  · next heq =>
    cases heq
    exact absurd rfl hclose
  · next c' cs' _ heq =>
    cases heq
    rw [if_neg hdot, leads_bind]
    -- First the head, then the rest with one more element before it.
    refine (ha.reads (by omega) known ahead (hd.stops rest)).mono ?_
      fun e _ he => he.mono (Nat.le_add_right _ _)
    rintro x r₁ ⟨h₁, rfl, g₁, hx⟩
    have hbefore : h₁.AllUnfold (x :: before) (a :: ts) := .cons hx (g₁.allUnfold unfold)
    refine (hd.reads (r := r.after texta _ h₁) (by omega) known rfl (List.cons_ne_nil _ _)
      hbefore).mono ?_ fun e _ he => he.after g₁
    rintro v r₂ ⟨h₂, rfl, g₂, hv⟩
    exact ⟨h₂, after_after .., g₁.trans g₂, by simpa using hv⟩

/-- At the end of a list its pairs are made. -/
theorem leads_listEnd {h : Heap} {w : Value} (unfold : h.AllUnfold before ts) (hw : h.Unfolds w d) :
    Leads (Heap.listWithTail before.reverse w) h
      (fun v h' => h.Gains before.length h' ∧ h'.Unfolds v (ts.reverse.foldr .node d))
      fun e _ => h.Overflows before.length e := by
  have hlist := Heap.leads_listWithTail (List.forall₂_reverse_iff.2 unfold) hw
  rwa [List.length_reverse] at hlist

end

/-- At the closing parenthesis the elements that were read before are made into a list. -/
theorem readsTail_nil : ReadsTail symbols [')'] (.leaf .nil) where
  length_pos := Nat.one_pos
  stops _ := .inr rfl
  reads {r rest fuel before ts} enough _ ahead _ unfold := by
    obtain ⟨fuel, rfl⟩ : ∃ n, fuel = n + 1 := ⟨fuel - 1, by simp at enough; omega⟩
    rw [readElements, leads_bind, leads_of_ok (skip_eq ahead rfl (by decide)), leads_bind, leads_get,
      ahead]
    simp only [List.cons_append, List.nil_append, leads_bind]
    rw [leads_of_ok (advance_eq ahead), leads_heap, Tree.pairs, Nat.zero_add]
    refine (leads_listEnd unfold (.leaf rfl)).mono ?_ fun e _ he => he
    rintro v h ⟨g, hv⟩
    exact ⟨h, rfl, g, hv⟩

section

variable {r : Reading} {cs rest : List Char} {fuel : Nat} {before : List Value}

/-- After a dot the tail of a list is read. -/
theorem leads_readElements_dot {ok : Value → Reading → Prop} {err : Failure → Reading → Prop}
    (ahead : r.ahead = '.' :: ' ' :: cs) (nonempty : before ≠ []) :
    Leads (readElements (fuel + 1) before) r ok err ↔
      Leads (readForm fuel) (r.after ['.'] (' ' :: cs) r.heap)
        (fun tail r' => Leads (do closeDotted; Heap.listWithTail before.reverse tail) r' ok err)
        err := by
  rw [readElements, leads_bind, leads_of_ok (skip_eq ahead rfl (by decide)), leads_bind, leads_get,
    ahead]
  change Leads (if '.' = '.' ∧ isDotSeparator (' ' :: cs) = true then _ else _) _ _ _ ↔ _
  rw [if_pos ⟨rfl, rfl⟩, readTail, if_neg (by simpa using nonempty), leads_bind,
    leads_of_ok (advance_eq ahead), leads_bind]

theorem closeDotted_eq (ahead : r.ahead = ')' :: rest) :
    closeDotted r = .ok () (r.after [')'] rest r.heap) := by
  rw [eq_iff_leads, closeDotted, leads_bind, leads_of_ok (skip_eq ahead rfl (by decide)),
    leads_bind, leads_of_ok peek?_eq, ahead]
  exact eq_iff_leads.1 (advance_eq ahead)

end

/-- A dotted tail is read and put at the end of the list. -/
theorem readsTail_leaf (hv : ReadsAs symbols text v) (atom : v.isAtom = true) :
    ReadsTail symbols (' ' :: '.' :: ' ' :: (text ++ [')'])) (.leaf v) where
  length_pos := Nat.succ_pos _
  stops _ := .inl rfl
  reads {r rest fuel before ts} enough known ahead nonempty unfold := by
    simp only [List.length_cons] at enough
    obtain ⟨fuel, rfl⟩ : ∃ n, fuel = n + 2 := ⟨fuel - 2, by omega⟩
    -- The text is a blank, a dot, a blank, the atom and the closing parenthesis.
    have hspace : r.ahead = ' ' :: '.' :: ' ' :: (text ++ ')' :: rest) := by simpa using ahead
    have hstops : Stops (')' :: rest) := .inr rfl
    rw [leads_readElements_space hspace, leads_readElements_dot rfl nonempty,
      leads_readForm_space rfl,
      leads_of_ok (hv.reads (r := ((r.after _ _ _).after _ _ _).after _ _ _) fuel known rfl hstops),
      leads_bind,
      leads_of_ok (closeDotted_eq rfl), leads_heap, Tree.pairs, Nat.zero_add]
    simp only [after_after]
    refine (leads_listEnd unfold (.leaf atom)).mono ?_ fun e _ he => he
    rintro w h ⟨g, hw⟩
    exact ⟨h, by simp [after], g, hw⟩

/-- Another element of the list is read, and then the rest of it. -/
theorem readsTail_node (ha : ReadsTree symbols texta a) (hd : ReadsTail symbols textd d) :
    ReadsTail symbols (' ' :: (texta ++ textd)) (.node a d) where
  length_pos := Nat.succ_pos _
  stops _ := .inl rfl
  reads {r rest fuel before ts} enough known ahead nonempty unfold := by
    rw [List.length_cons] at enough
    obtain ⟨fuel, rfl⟩ : ∃ n, fuel = n + 1 := ⟨fuel - 1, by omega⟩
    have henough : 2 * (texta ++ textd).length ≤ fuel + 1 := by omega
    rw [leads_readElements_space ahead]
    refine (leads_readElements (r := r.after _ _ _) ha hd henough known rfl unfold).mono ?_ fun e _ he => he
    rintro v r' ⟨h, rfl, g, hv⟩
    exact ⟨h, after_after .., g, hv⟩

/-- A list is read from its first element on. -/
theorem readsTree_list (ha : ReadsTree symbols texta a) (hd : ReadsTail symbols textd d) :
    ReadsTree symbols ('(' :: (texta ++ textd)) (.node a d) where
  begins _ := ⟨rfl, by decide, by decide, fun h => absurd h.1 (by decide)⟩
  reads {r rest fuel} enough known ahead _ := by
    rw [List.length_cons] at enough
    obtain ⟨fuel, rfl⟩ : ∃ n, fuel = n + 1 := ⟨fuel - 1, by omega⟩
    have henough : 2 * (texta ++ textd).length ≤ fuel := by omega
    rw [readForm, leads_bind, leads_of_ok (skip_eq ahead rfl (by decide)), leads_bind,
      leads_of_ok peek?_eq, ahead]
    change Leads (advance >>= fun _ => readElements fuel []) _ _ _
    rw [leads_bind, leads_of_ok (advance_eq ahead)]
    refine (leads_readElements (r := r.after _ _ _) ha hd henough known rfl .nil).mono ?_ fun e _ he => he
    rintro v r' ⟨h, rfl, g, hv⟩
    exact ⟨h, after_after .., g, hv⟩

/-- A form with a mark before it becomes a list of two. -/
theorem leads_readMarked (hx : ReadsTree symbols text x) (head : SymbolId) {r : Reading}
    {rest : List Char} {fuel : Nat} (enough : 2 * text.length + 1 ≤ fuel)
    (known : r.symbols = symbols) (ahead : r.ahead = text ++ rest) (stops : Stops rest) :
    Leads (readMarked fuel head) r
      (r.Yields text rest (x.pairs + 2) (.node (.leaf (.symbol head)) (.node x (.leaf .nil))))
      fun e _ => r.heap.Overflows (x.pairs + 2) e := by
  obtain ⟨fuel, rfl⟩ : ∃ n, fuel = n + 1 := ⟨fuel - 1, by omega⟩
  rw [readMarked, leads_bind]
  refine (hx.reads (by omega) known ahead stops).mono ?_
    fun e _ he => he.mono (Nat.le_add_right _ _)
  rintro v r₁ ⟨h₁, rfl, g₁, hv⟩
  rw [leads_heap]
  refine (Heap.leads_listWithTail (.cons (.leaf rfl) (.cons hv .nil)) (.leaf rfl)).mono ?_
    fun e _ he => he.after g₁
  rintro w h ⟨g, hw⟩
  exact ⟨h, rfl, g₁.trans g, hw⟩

/-- A form with a mark is read as the list of two that the mark stands for. -/
theorem readsTree_mark {s : SymbolId} {mark : List Char} (hmark : Image.symbolMark? s = some mark)
    (hx : ReadsTree symbols text x) :
    ReadsTree symbols (mark ++ text) (.node (.leaf (.symbol s)) (.node x (.leaf .nil))) where
  begins _ := by
    rcases Image.symbolMark?_inv hmark with ⟨-, rfl⟩ | ⟨-, rfl⟩ <;>
      exact ⟨rfl, by decide, by decide, fun h => absurd h.1 (by decide)⟩
  reads {r rest fuel} enough known ahead stops := by
    have hpairs : (Tree.node (.leaf (.symbol s)) (.node x (.leaf .nil))).pairs = x.pairs + 2 := by
      simp [Tree.pairs]
    have hfuel : 1 ≤ mark.length → ∃ n, fuel = n + 1 ∧ 2 * text.length + 1 ≤ n := fun hlength =>
      ⟨fuel - 1, by rw [List.length_append] at enough; omega⟩
    rw [hpairs]
    -- A quote is one character, and the mark of a function is two.
    rcases Image.symbolMark?_inv hmark with ⟨rfl, rfl⟩ | ⟨rfl, rfl⟩
    · obtain ⟨fuel, rfl, henough⟩ := hfuel (by decide)
      rw [readForm, leads_bind, leads_of_ok (skip_eq ahead rfl (by decide)), leads_bind,
        leads_of_ok peek?_eq, ahead]
      change Leads (advance >>= fun _ => readMarked fuel .quote) _ _ _
      rw [leads_bind, leads_of_ok (advance_eq ahead)]
      refine (leads_readMarked (r := r.after _ _ _) hx _ henough known rfl stops).mono ?_ fun e _ he => he
      rintro v r' ⟨h, rfl, g, hv⟩
      exact ⟨h, after_after .., g, hv⟩
    · obtain ⟨fuel, rfl, henough⟩ := hfuel (by decide)
      rw [readForm, leads_bind, leads_of_ok (skip_eq ahead rfl (by decide)), leads_bind,
        leads_of_ok peek?_eq, ahead]
      change Leads (advance >>= fun _ => peek? >>= fun _ => _) _ _ _
      rw [leads_bind, leads_of_ok (advance_eq ahead), leads_bind, leads_of_ok peek?_eq]
      change Leads (advance >>= fun _ => readMarked fuel .function) _ _ _
      rw [leads_bind, leads_of_ok (advance_eq rfl)]
      refine (leads_readMarked (r := (r.after _ _ _).after _ _ _) hx _ henough known rfl stops).mono ?_ fun e _ he => he
      rintro v r' ⟨h, rfl, g, hv⟩
      exact ⟨h, by simp, g, hv⟩

end Reading

namespace Image

open Reading

variable {image : Image}

mutual

/-- The text of a tree is read as the tree, by recursion on the tree. -/
theorem readsTree_formText : ∀ {t : Tree}, (∀ v ∈ t.leaves, image.IsLeaf v ∧ image.ReadsBack v) →
    ReadsTree image.symbols (image.formText t) t
  | .leaf v, hleaves => by
    obtain ⟨hv, hback⟩ := hleaves v List.mem_cons_self
    rw [formText]
    exact readsTree_leaf (hback.readsAs hv) hv.isAtom
  | .node a d, hleaves => by
    rw [Tree.leaves, List.forall_mem_append] at hleaves
    cases hmark : mark? a d with
    | some mark =>
      obtain ⟨s, x, rfl, rfl, hsymbol⟩ := mark?_inv hmark
      rw [formText_of_mark hmark, headText]
      exact readsTree_mark hsymbol (readsTree_formText fun v hv => hleaves.2 v (by simp [Tree.leaves, hv]))
    | none =>
      rw [formText_of_not_mark hmark]
      exact readsTree_list (readsTree_formText hleaves.1) (readsTail_tailText hleaves.2)

/-- The text of a tail is read as the tail. -/
theorem readsTail_tailText : ∀ {d : Tree}, (∀ v ∈ d.leaves, image.IsLeaf v ∧ image.ReadsBack v) →
    ReadsTail image.symbols (image.tailText d) d
  | .leaf v, hleaves => by
    obtain ⟨hv, hback⟩ := hleaves v List.mem_cons_self
    by_cases hnil : v = .nil
    · rw [hnil, tailText]
      exact readsTail_nil
    · rw [tailText_leaf hnil]
      exact readsTail_leaf (hback.readsAs hv) hv.isAtom
  | .node a d, hleaves => by
    rw [Tree.leaves, List.forall_mem_append] at hleaves
    rw [tailText]
    exact readsTail_node (readsTree_formText hleaves.1) (readsTail_tailText hleaves.2)

end

variable {v : Value} {t : Tree}

/-- The conditions under which a value is read back: it has no cycles, all of it is
    printed, and its leaves are read back. -/
structure Readable (image : Image) (v : Value) (t : Tree) : Prop where
  unfolds : image.heap.Unfolds v t
  depth : t.depth ≤ maxDepth
  longest : t.longest ≤ maxLength
  leaves : ∀ leaf ∈ t.leaves, image.IsLeaf leaf ∧ image.ReadsBack leaf

/-- What is printed of such a value is the text of its tree. -/
theorem Readable.leads_readNext (hv : image.Readable v t) :
    Leads (readNext (image.print v).toList) image
      (fun result image' => ∃ v', result = some (v', [], byteCount (image.print v).toList) ∧
        image.heap.Gains t.pairs image'.heap ∧ image'.heap.Unfolds v' t)
      fun e _ => image.heap.Overflows t.pairs e := by
  rw [print_eq hv.unfolds hv.depth hv.longest]
  have hread := readsTree_formText hv.leaves
  generalize image.formText t = text at *
  cases text with
  | nil => exact (hread.begins []).elim
  | cons c cs =>
    obtain ⟨hlayout, hcomment, -⟩ := hread.begins []
    rw [Image.leads_readNext hlayout hcomment]
    have hstops : Stops [] := trivial
    refine (hread.reads (Nat.le_succ _) rfl (List.append_nil _).symm hstops).mono ?_ fun e _ he => he
    rintro v' r ⟨h, rfl, g, hv'⟩
    exact ⟨v', by simp [after], g, hv'⟩

/-- Where the heap has room for the pairs of the value, its text is read to the end, as
    a value that is equal to it; elsewhere reading it fails for want of room. -/
theorem readNext_print (hv : image.Readable v t) :
    (image.heap.RoomFor t.pairs → ∃ v' image',
      readNext (image.print v).toList image =
        .ok (some (v', [], byteCount (image.print v).toList)) image' ∧
      readOne (image.print v) image = .ok v' image' ∧
      image'.heap.Unfolds v' t ∧ image'.heap.equal v v' = .ok true) ∧
    (¬image.heap.RoomFor t.pairs → ∃ image',
      readNext (image.print v).toList image = .error (.error .heapOverflow) image') := by
  have hleads := hv.leads_readNext
  unfold Leads at hleads
  -- The reading succeeds just if there is room for the pairs of the tree.
  split at hleads
  · next result image' hok =>
    obtain ⟨v', rfl, g, hv'⟩ := hleads
    refine ⟨fun _ => ⟨v', image', hok, ?_, hv', (g.unfolds hv.unfolds).equal hv'⟩,
      fun full => absurd g.room full⟩
    simp only [readOne, bind, EStateM.bind, hok]
    rfl
  · next e image' herr =>
    obtain ⟨rfl, full⟩ := hleads
    exact ⟨fun room => absurd room full, fun _ => ⟨image', herr⟩⟩

/-- The list `(''t (quote . t) (t quote 7) . t)`, on a heap with room for another one. -/
def sample : Image where
  heap :=
    { cars := #[.t, .symbol .quote, .pair ⟨1⟩, .symbol .quote, .symbol .quote, .int 7,
        .symbol .quote, .t, .pair ⟨7⟩, .pair ⟨4⟩, .pair ⟨3⟩]
      cdrs := #[.nil, .pair ⟨0⟩, .nil, .pair ⟨2⟩, .t, .nil, .pair ⟨5⟩, .pair ⟨6⟩, .t,
        .pair ⟨8⟩, .pair ⟨9⟩]
      capacity := 22 }

example : sample.print (.pair ⟨10⟩) = "(''t (quote . t) (t quote 7) . t)" := by
  decide +kernel

/-- The tree of that list. -/
def sampleTree : Tree :=
  let quoted (x : Tree) : Tree := .node (.leaf (.symbol .quote)) (.node x (.leaf .nil))
  .node (quoted (quoted (.leaf .t))) (.node (.node (.leaf (.symbol .quote)) (.leaf .t))
    (.node (.node (.leaf .t) (quoted (.leaf (.int 7)))) (.leaf .t)))

/-- Its leaves are a number and symbols with names that read back. -/
theorem readable_sample : sample.Readable (.pair ⟨10⟩) sampleTree where
  unfolds := by
    unfold sampleTree
    repeat' first | exact .leaf rfl | refine .node (by decide) ?_ ?_
  depth := by decide
  longest := by decide
  leaves leaf hleaf := by
    have hcases : leaf = .ofSymbol .quote ∨ leaf = .ofSymbol .t ∨ leaf = .ofSymbol .nil ∨
        leaf = .int 7 := by
      revert leaf
      decide
    rcases hcases with rfl | rfl | rfl | rfl
    · exact NamedByWord.leaf (by decide +kernel)
    · exact NamedByWord.leaf (by decide +kernel)
    · exact NamedByWord.leaf (by decide +kernel)
    · exact ⟨.inl ⟨7, rfl⟩, readsBack_of_word (by decide +kernel) (by decide +kernel) fun r _ => rfl⟩

/-- The list is read back, with room to spare. -/
theorem readNext_print_sample : sample.Readable (.pair ⟨10⟩) sampleTree ∧
    sample.heap.RoomFor sampleTree.pairs ∧ ∃ v' image',
      readNext (sample.print (.pair ⟨10⟩)).toList sample =
        .ok (some (v', [], byteCount (sample.print (.pair ⟨10⟩)).toList)) image' ∧
      readOne (sample.print (.pair ⟨10⟩)) sample = .ok v' image' ∧
      image'.heap.Unfolds v' sampleTree ∧ image'.heap.equal (.pair ⟨10⟩) v' = .ok true :=
  have room : sample.heap.RoomFor sampleTree.pairs := .inr (by decide)
  ⟨readable_sample, room, (readNext_print readable_sample).1 room⟩

/-- The list `(t)`, which fills its heap. -/
def full : Image where
  heap := { cars := #[.t], cdrs := #[.nil], capacity := 1 }

/-- The list is as readable as any. -/
theorem readable_full : full.Readable (.pair ⟨0⟩) (.node (.leaf .t) (.leaf .nil)) where
  unfolds := .node (by decide) (.leaf rfl) (.leaf rfl)
  depth := by decide
  longest := by decide
  leaves leaf hleaf := by
    rcases List.mem_cons.1 hleaf with rfl | hleaf
    · have ht : full.NamedByWord .t := by decide +kernel
      exact ht.leaf
    · cases List.mem_singleton.1 hleaf
      have hnil : full.NamedByWord .nil := by decide +kernel
      exact hnil.leaf

/-- But there is no room for another one. -/
theorem print_unread_of_full : full.Readable (.pair ⟨0⟩) (.node (.leaf .t) (.leaf .nil)) ∧
    ∀ v' image', readOne (full.print (.pair ⟨0⟩)) full ≠ .ok v' image' := by
  refine ⟨readable_full, fun v' image' hok => ?_⟩
  have hfails : Leads (readOne (full.print (.pair ⟨0⟩))) full (fun _ _ => False) fun _ _ => True := by
    rw [readOne, leads_bind]
    refine readable_full.leads_readNext.mono ?_ fun _ _ _ => trivial
    rintro result image₁ ⟨-, -, g, -⟩
    rcases g.room with hzero | hroom
    · cases hzero
    · exact absurd hroom (by decide)
  rwa [leads_of_ok hok] at hfails

end Image

end StackLisp
