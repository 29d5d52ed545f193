import RobotCode.Proofs.Halt
import RobotCode.Proofs.Views

/-! # Texts can be read back

The text of a statement tells where it ends, so that values that differ have different texts. Names
are quoted and escaped; kinds and tests are words that hold none of the marks that follow them.
-/
namespace RobotCode
variable {α : Type} {f : α → List Char} {a b : α} {r r' : List Char}

/-- What is written for `a` is not the beginning of what is written for anything else, whatever
follows. -/
def Legible (f : α → List Char) (a : α) : Prop := ∀ b r r', f a ++ r = f b ++ r' → a = b ∧ r = r'

theorem Legible.eq (h : Legible f a) (e : f a = f b) : a = b := (h b [] [] (by rw [e])).1

theorem append_cons_inj {xs ys : List α} {c : α} {r r' : List α} (hx : c ∉ xs) (hy : c ∉ ys)
    (h : xs ++ c :: r = ys ++ c :: r') : xs = ys ∧ r = r' := by
  induction xs generalizing ys with
  | nil =>
    cases ys with
    | nil => exact ⟨rfl,(List.cons.inj h).2⟩
    | cons y ys => exact absurd ((List.cons.inj h).1 ▸ List.mem_cons_self) hy
  | cons x xs ih =>
    cases ys with
    | nil => exact absurd ((List.cons.inj h).1 ▸ List.mem_cons_self) hx
    | cons y ys =>
      obtain ⟨rfl,hrest⟩ := List.cons.inj h
      obtain ⟨rfl,hr⟩ := ih (fun hc => hx (.tail _ hc)) (fun hc => hy (.tail _ hc)) hrest
      exact ⟨rfl,hr⟩

/-- A word ends where a mark follows that it does not hold. -/
theorem eq_of_words {word : α → String} {stop : Char} (hinj : ∀ {a b}, word a = word b → a = b)
    (hstop : ∀ a, stop ∉ (word a).toList)
    (h : (word a).toList ++ stop :: r = (word b).toList ++ stop :: r') : a = b ∧ r = r' := by
  obtain ⟨hw,hr⟩ := append_cons_inj (hstop a) (hstop b) h
  exact ⟨hinj (String.toList_inj.mp hw),hr⟩

namespace Text

def hexValue (c : Char) : ℕ := if c.toNat < 58 then c.toNat - 48 else c.toNat - 87

def readHex (cs : List Char) : ℕ := cs.foldl (fun n c => 16 * n + hexValue c) 0

theorem hexValue_hexDigit : ∀ d < 16, hexValue (hexDigit d) = d := by decide

theorem readHex_hexDigits (w n : ℕ) : readHex (hexDigits w n) = n % 16 ^ w := by
  induction w generalizing n with
  | zero => simp [hexDigits, readHex, Nat.mod_one]
  | succ w ih =>
    have hlast : hexValue (hexDigit (n % 16)) = n % 16 :=
      hexValue_hexDigit _ (Nat.mod_lt n (by decide))
    have hfirst : readHex (hexDigits (w + 1) n) = 16 * readHex (hexDigits w (n / 16)) + n % 16 := by
      simp [readHex, hexDigits, hlast]
    rw [hfirst, ih, Nat.pow_succ, Nat.mul_comm (16 ^ w), Nat.mod_mul, Nat.add_comm]

/-- The character that is spelt by its code point, and what follows. -/
def readCode (width : ℕ) (cs : List Char) : Char × List Char :=
  (Char.ofNat (readHex (cs.take width)),cs.drop width)

theorem readCode_hexDigits {w : ℕ} {c : Char} (h : c.toNat < 16 ^ w) (r : List Char) :
    readCode w (hexDigits w c.toNat ++ r) = (c,r) := by
  have hlen := length_hexDigits w c.toNat
  unfold readCode
  rw [List.take_left' hlen, List.drop_left' hlen, readHex_hexDigits, Nat.mod_eq_of_lt h,
    Char.ofNat_toNat]

/-- The character at the beginning of an escaped text, and what follows. -/
def unescape : List Char → Option (Char × List Char)
  | [] => none
  | c :: cs =>
    if c ≠ backslash then some (c,cs)
    else match cs with
      | [] => none
      | 'n' :: cs => some ('\n',cs)
      | 'r' :: cs => some ('\r',cs)
      | 't' :: cs => some ('\t',cs)
      | 'x' :: cs => some (readCode 2 cs)
      | 'u' :: cs => some (readCode 4 cs)
      | 'U' :: cs => some (readCode 8 cs)
      | c :: cs => some (c,cs)

/-- A mark put around texts. -/
def IsQuote (q : Char) : Prop := q = apostrophe ∨ q = doubleQuote

theorem unescape_escape {q : Char} (hq : IsQuote q) (c : Char) (r : List Char) :
    unescape (escape q c ++ r) = some (c,r) := by
  unfold escape
  split
  next h =>
    obtain rfl | rfl : c = q ∨ c = backslash := h
    · rcases hq with rfl | rfl <;> rfl
    · rfl
  next hplain =>
    split
    next h => rw [h]; rfl
    split
    next h => rw [h]; rfl
    split
    next h => rw [h]; rfl
    split
    next => exact if_pos fun h => hplain (Or.inr h)
    split
    next h => exact congrArg some (readCode_hexDigits h r)
    split
    next h => exact congrArg some (readCode_hexDigits h r)
    next => exact congrArg some (readCode_hexDigits c.val.toNat_lt r)

theorem legible_escape {q : Char} (hq : IsQuote q) (c : Char) : Legible (escape q) c := by
  intro d r r' h
  have hread := congrArg unescape h
  rw [unescape_escape hq, unescape_escape hq] at hread
  cases hread
  exact ⟨rfl,rfl⟩

theorem IsQuote.ne_backslash {q : Char} (hq : IsQuote q) : q ≠ backslash := by
  rcases hq with rfl | rfl <;> decide

theorem unescape_of_ne {c : Char} (h : c ≠ backslash) (r : List Char) :
    unescape (c :: r) = some (c,r) := if_pos h

/-- No escaped character begins with the quote. -/
theorem escape_ne_quote {q : Char} (hq : IsQuote q) (c : Char) (r r' : List Char) :
    escape q c ++ r ≠ q :: r' := by
  intro h
  have hread := congrArg unescape h
  rw [unescape_escape hq, unescape_of_ne hq.ne_backslash] at hread
  cases hread
  simp only [escape, true_or, if_true] at h
  exact hq.ne_backslash (List.cons.inj h).1.symm

theorem eq_of_escaped {q : Char} (hq : IsQuote q) {cs ds r r' : List Char}
    (h : cs.flatMap (escape q) ++ q :: r = ds.flatMap (escape q) ++ q :: r') :
    cs = ds ∧ r = r' := by
  induction cs generalizing ds with
  | nil =>
    cases ds with
    | nil => exact ⟨rfl,(List.cons.inj h).2⟩
    | cons d ds =>
      rw [List.flatMap_cons, List.append_assoc] at h
      exact absurd h.symm (escape_ne_quote hq d _ _)
  | cons c cs ih =>
    rw [List.flatMap_cons, List.append_assoc] at h
    cases ds with
    | nil => exact absurd h (escape_ne_quote hq c _ _)
    | cons d ds =>
      rw [List.flatMap_cons, List.append_assoc] at h
      obtain ⟨rfl,hrest⟩ := legible_escape hq c d _ _ h
      obtain ⟨rfl,hr⟩ := ih hrest
      exact ⟨rfl,hr⟩

theorem isQuote_delimiter (cs : List Char) : IsQuote (delimiter cs) := by
  unfold delimiter
  split
  next => exact Or.inr rfl
  next => exact Or.inl rfl

/-- The quote that a text begins with is the one that ends it. -/
theorem legible_quotedChars (cs : List Char) : Legible quotedChars cs := by
  intro ds r r' h
  simp only [quotedChars, List.cons_append, List.append_assoc, List.nil_append] at h
  obtain ⟨hq,h⟩ := List.cons.inj h
  rw [hq] at h
  exact eq_of_escaped (isQuote_delimiter ds) h

end Text

namespace Tree
variable {t u : Tree} {ts us : List Tree}

def chars (t : Tree) : List Char := t.text.toList

/-- What comes after the first statement between brackets. -/
def others (ts : List Tree) : List Char := ts.flatMap fun t => ',' :: ' ' :: t.chars

theorem toList_intercalate_texts (t : Tree) (ts : List Tree) :
    (", ".intercalate (texts (t :: ts))).toList = t.chars ++ others ts := by
  rw [String.toList_intercalate]
  induction ts generalizing t with
  | nil => simp [texts, others, chars]
  | cons u ts ih =>
    have hstep := ih u
    simp only [texts, List.map_cons, List.intercalate_cons_cons] at hstep ⊢
    rw [hstep]
    simp [others, chars]

/-- What comes after the opening of a statement, `r` following it. -/
def tail (r : List Char) : Tree → List Char
  | .block ts => Kind.block.name.toList ++ ',' :: ' ' :: '[' ::
      ((", ".intercalate (texts ts)).toList ++ ']' :: ')' :: r)
  | .guarded g c ts => g.kind.name.toList ++ ',' :: ' ' :: (c.name.toList ++ ',' :: ' ' :: '[' ::
      ((", ".intercalate (texts ts)).toList ++ ']' :: ')' :: r))
  | .call name => Kind.call.name.toList ++ ',' :: ' ' :: (Text.quotedChars name.toList ++ ')' :: r)
  | .pending k => '<' :: ("disassembled ".toList ++ (k.name.toList ++ '>' :: ')' :: r))

theorem text_block (ts : List Tree) :
    text (.block ts) = "Statement(BLOCK, [" ++ ", ".intercalate (texts ts) ++ "])" := rfl

theorem text_guarded (g : Guarded) (c : Condition) (ts : List Tree) :
    text (.guarded g c ts) = "Statement(" ++ g.kind.name ++ ", " ++ c.name ++ ", [" ++
      ", ".intercalate (texts ts) ++ "])" := rfl

theorem text_call (name : String) :
    text (.call name) = "Statement(CALL, " ++ Text.quoted name ++ ")" := rfl

theorem text_pending (k : Kind) :
    text (.pending k) = "Statement(<disassembled " ++ k.name ++ ">)" := rfl

theorem chars_append (t : Tree) (r : List Char) :
    t.chars ++ r = "Statement(".toList ++ t.tail r := by
  unfold chars
  cases t with
  | block ts =>
    rw [text_block]
    simp [tail, Kind.name]
  | guarded g c ts =>
    rw [text_guarded]
    simp [tail]
  | call name =>
    rw [text_call]
    simp [tail, Kind.name]
  | pending k =>
    rw [text_pending]
    simp [tail]

theorem exists_chars_eq (t : Tree) : ∃ cs, t.chars = 'S' :: cs := by
  have hs : "Statement(".toList = 'S' :: "tatement(".toList := by decide
  have ht := t.chars_append []
  rw [List.append_nil, hs, List.cons_append] at ht
  exact ⟨_,ht⟩

theorem eq_of_others (h : ∀ t ∈ ts, Legible chars t)
    (e : others ts ++ ']' :: r = others us ++ ']' :: r') : ts = us ∧ r = r' := by
  induction ts generalizing us with
  | nil =>
    cases us with
    | nil => exact ⟨rfl,(List.cons.inj e).2⟩
    | cons u us => exact absurd (List.cons.inj e).1 (by decide)
  | cons t ts ih =>
    obtain ⟨ht,hts⟩ := List.forall_mem_cons.mp h
    cases us with
    | nil => exact absurd (List.cons.inj e).1 (by decide)
    | cons u us =>
      simp only [others, List.flatMap_cons, List.cons_append, List.append_assoc, List.cons.injEq,
        true_and] at e
      obtain ⟨rfl,hrest⟩ := ht u _ _ e
      obtain ⟨rfl,hr⟩ := ih hts hrest
      exact ⟨rfl,hr⟩

theorem eq_of_intercalate (h : ∀ t ∈ ts, Legible chars t)
    (e : (", ".intercalate (texts ts)).toList ++ ']' :: r =
      (", ".intercalate (texts us)).toList ++ ']' :: r') : ts = us ∧ r = r' := by
  cases ts with
  | nil =>
    cases us with
    | nil => exact ⟨rfl,(List.cons.inj e).2⟩
    | cons u us =>
      obtain ⟨cs,hu⟩ := exists_chars_eq u
      rw [toList_intercalate_texts, hu] at e
      exact absurd (List.cons.inj e).1 (by decide)
  | cons t ts =>
    obtain ⟨ht,hts⟩ := List.forall_mem_cons.mp h
    rw [toList_intercalate_texts] at e
    cases us with
    | nil =>
      obtain ⟨cs,ht⟩ := exists_chars_eq t
      rw [ht] at e
      exact absurd (List.cons.inj e).1 (by decide)
    | cons u us =>
      rw [toList_intercalate_texts, List.append_assoc, List.append_assoc] at e
      obtain ⟨rfl,hrest⟩ := ht u _ _ e
      obtain ⟨rfl,hr⟩ := eq_of_others hts hrest
      exact ⟨rfl,hr⟩

theorem eq_of_kinds {j k : Kind} (h : j.name.toList ++ ',' :: r = k.name.toList ++ ',' :: r') :
    j = k ∧ r = r' :=
  eq_of_words Kind.name_injective (fun k => by cases k <;> decide) h

theorem eq_of_tests {c d : Condition} (h : c.name.toList ++ ',' :: r = d.name.toList ++ ',' :: r') :
    c = d ∧ r = r' :=
  eq_of_words Condition.name_injective (fun c => by cases c <;> decide) h

theorem eq_of_awaited {j k : Kind} (h : j.name.toList ++ '>' :: r = k.name.toList ++ '>' :: r') :
    j = k ∧ r = r' :=
  eq_of_words Kind.name_injective (fun k => by cases k <;> decide) h

/-- The kind of an assembled statement is never what one taken apart begins with. -/
theorem kind_ne_awaited (k : Kind) : k.name.toList ++ r ≠ '<' :: r' := by
  intro h
  cases k <;> exact absurd (List.cons.inj h).1 (by decide)

theorem legible_of_tail (h : ∀ u r r', t.tail r = u.tail r' → t = u ∧ r = r') :
    Legible chars t := by
  intro u r r' e
  rw [chars_append, chars_append] at e
  exact h u r r' (List.append_cancel_left e)

theorem legible_block (h : ∀ t ∈ ts, Legible chars t) : Legible chars (.block ts) := by
  refine legible_of_tail fun u r r' e => ?_
  cases u with
  | block us =>
    obtain ⟨rfl,hr⟩ := eq_of_intercalate h (List.cons.inj (List.cons.inj (eq_of_kinds e).2).2).2
    exact ⟨rfl,(List.cons.inj hr).2⟩
  | guarded g c us => exact absurd (eq_of_kinds e).1.symm g.kind_ne_block
  | call name => exact absurd (eq_of_kinds e).1 (by decide)
  | pending k => exact absurd e (kind_ne_awaited _)

theorem legible_guarded {g : Guarded} {c : Condition} (h : ∀ t ∈ ts, Legible chars t) :
    Legible chars (.guarded g c ts) := by
  refine legible_of_tail fun u r r' e => ?_
  cases u with
  | block us => exact absurd (eq_of_kinds e).1 g.kind_ne_block
  | guarded g' c' us =>
    obtain ⟨hg,htest⟩ := eq_of_kinds e
    obtain ⟨rfl,hlist⟩ := eq_of_tests (List.cons.inj htest).2
    obtain ⟨rfl,hr⟩ := eq_of_intercalate h (List.cons.inj (List.cons.inj hlist).2).2
    rw [Guarded.kind_injective hg]
    exact ⟨rfl,(List.cons.inj hr).2⟩
  | call name => exact absurd (eq_of_kinds e).1 g.kind_ne_call
  | pending k => exact absurd e (kind_ne_awaited _)

theorem legible_call (name : String) : Legible chars (.call name) := by
  refine legible_of_tail fun u r r' e => ?_
  cases u with
  | block us => exact absurd (eq_of_kinds e).1 (by decide)
  | guarded g c us => exact absurd (eq_of_kinds e).1.symm g.kind_ne_call
  | call name' =>
    obtain ⟨hname,hr⟩ := Text.legible_quotedChars _ _ _ _ (List.cons.inj (eq_of_kinds e).2).2
    rw [String.toList_inj.mp hname]
    exact ⟨rfl,(List.cons.inj hr).2⟩
  | pending k => exact absurd e (kind_ne_awaited _)

theorem legible_pending (k : Kind) : Legible chars (.pending k) := by
  refine legible_of_tail fun u r r' e => ?_
  cases u with
  | block us => exact absurd e.symm (kind_ne_awaited _)
  | guarded g c us => exact absurd e.symm (kind_ne_awaited _)
  | call name => exact absurd e.symm (kind_ne_awaited _)
  | pending k' =>
    obtain ⟨rfl,hr⟩ := eq_of_awaited (List.append_cancel_left (List.cons.inj e).2)
    exact ⟨rfl,(List.cons.inj hr).2⟩

theorem legible (t : Tree) : Legible chars t := by
  induction t using Tree.induction with
  | block ts ih => exact legible_block ih
  | guarded g c ts ih => exact legible_guarded ih
  | call name => exact legible_call name
  | pending k => exact legible_pending k

theorem text_injective : Function.Injective text := fun t _ h =>
  t.legible.eq (congrArg String.toList h)

end Tree

section Equality
open Store
variable {s : Store} {m n : NodeId} {t u : Tree}

theorem text_eq_iff (ht : s.tree? m = some t) (hu : s.tree? n = some u) :
    s.text m = s.text n ↔ t = u := by
  rw [text_of_tree? ht, text_of_tree? hu, Except.ok.injEq]
  exact Tree.text_injective.eq_iff

theorem equals_of_intact (hs : s.Sound) (ht : s.Holds m t) (hu : s.Holds n u)
    (hm : s.Intact m) (hn : s.Intact n) :
    Statement.equals (.statement m) (.statement n) s = .ok (decide (t = u)) s := by
  have hpt := (hs.intact_iff ht).mp hm
  have hpu := (hs.intact_iff hu).mp hn
  have hask : StoreM.ask (·.equal m n) s = .ok (decide (t = u)) s :=
    StoreM.ask_of_ok (hs.equal_eq ht hu hpt hpu)
  exact hask

/-- In a forest, two statements in which nothing is taken apart can be compared. They are equal just
if they have the same value, and just if they have the same text, whatever the names in them. So
equality is reflexive, symmetric and transitive, and different values have different texts. -/
theorem equals_iff_same_text {allowed : Store → Command → Prop} (h : Reachable allowed s)
    (hf : s.Forest) :
    (∀ m n, s.Intact m → s.Intact n → ∃ t u b, s.tree? m = some t ∧ s.tree? n = some u ∧
      Statement.equals (.statement m) (.statement n) s = .ok b s ∧
      (b = true ↔ s.text m = s.text n) ∧ (b = true ↔ t = u)) ∧
    (Equivalence fun m n : {n // s.Intact n} =>
      Statement.equals (.statement m) (.statement n) s = .ok true s) ∧
    Function.Injective Tree.text := by
  have hs := h.sound
  have ha := hf.acyclic
  refine ⟨fun m n hm hn => ?_,?_,Tree.text_injective⟩
  · obtain ⟨t,ht⟩ := exists_holds ha m
    obtain ⟨u,hu⟩ := exists_holds ha n
    refine ⟨t,u,decide (t = u),ht.tree?,hu.tree?,equals_of_intact hs ht hu hm hn,?_,?_⟩
    · rw [decide_eq_true_iff, text_eq_iff ht.tree? hu.tree?]
    · exact decide_eq_true_iff
  · have hvalue : ∀ m n : {n // s.Intact n},
        Statement.equals (.statement m) (.statement n) s = .ok true s ↔ s.tree? m = s.tree? n := by
      intro m n
      obtain ⟨t,ht⟩ := exists_holds ha m.1
      obtain ⟨u,hu⟩ := exists_holds ha n.1
      rw [equals_of_intact hs ht hu m.2 n.2, ht.tree?, hu.tree?]
      simp
    simp only [hvalue]
    exact ⟨fun _ => rfl,Eq.symm,Eq.trans⟩

/-- A block of one call, whose name reads like the end of it and another call, and a block of two
calls. -/
def lookalikes : Store :=
  ⟨#[{},.block [⟨2⟩],.call "a'), Statement(CALL, 'b",{},{},.block [⟨6⟩,⟨7⟩],
    .call "a",.call "b"]⟩

theorem reachable_lookalikes : Reachable (fun s c => c.Tame s) lookalikes := by
  have h : Reachable (fun s c => c.Tame s)
      ⟨#[{},.block [⟨2⟩],.call "a'), Statement(CALL, 'b"]⟩ :=
    .step (c := .build (.block [.call (.text "a'), Statement(CALL, 'b")]))
      .start (by decide) trivial rfl
  exact .step (c := .build (.block [.call (.text "a"),.call (.text "b")])) h (by decide) trivial rfl

theorem equals_iff_same_text_lookalikes : lookalikes.Intact ⟨1⟩ ∧ lookalikes.Intact ⟨5⟩ ∧
    Statement.equals (.statement ⟨1⟩) (.statement ⟨5⟩) lookalikes = .ok false lookalikes ∧
    lookalikes.text ⟨1⟩ ≠ lookalikes.text ⟨5⟩ := by
  have h := reachable_lookalikes
  have hs := h.sound
  have hone : lookalikes.tree? ⟨1⟩ = some (.block [.call "a'), Statement(CALL, 'b"]) := rfl
  have htwo : lookalikes.tree? ⟨5⟩ = some (.block [.call "a",.call "b"]) := rfl
  have hi₁ : lookalikes.Intact ⟨1⟩ := (hs.intact_iff (holds_of_tree? hone)).mpr rfl
  have hi₂ : lookalikes.Intact ⟨5⟩ := (hs.intact_iff (holds_of_tree? htwo)).mpr rfl
  obtain ⟨hcompare,_,_⟩ := equals_iff_same_text h (hs.forest h.acyclic)
  obtain ⟨t,u,b,ht,hu,hb,htext,hvalue⟩ := hcompare ⟨1⟩ ⟨5⟩ hi₁ hi₂
  rw [hone] at ht
  rw [htwo] at hu
  cases ht
  cases hu
  obtain rfl : b = false := by
    rw [← Bool.not_eq_true, hvalue]
    simp
  exact ⟨hi₁,hi₂,hb,fun e => absurd (htext.mpr e) (by decide)⟩

end Equality
end RobotCode
