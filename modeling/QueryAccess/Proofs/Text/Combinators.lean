import QueryAccess.Text.Parser

/-!
# Combinators on a text

What each parser combinator does to a text of which it is known what its parts do to it. A
class of characters reads on as long as it can: `QueryAccess.Parser.run_append` is about a run
that ends where the class ends.

The other way round, `QueryAccess.Parser.Keeps` says what is known of a text after a parser has
read something off it, and of what it has read. There is one rule for each combinator, so what
a grammar keeps is put together as the grammar is. What was tried and given up on the way plays
no part in it.
-/

namespace QueryAccess.Parser

variable {α β : Type} {p : Parser α} {text rest place : List Char} {a : α}

/-- No character at the front of a text is in a class: the text may be over. -/
def Shuns (admits : Char → Bool) (text : List Char) : Prop :=
  ∀ c ∈ text.head?, admits c = false

/-! ### Characters -/

section Characters

variable {admits : Char → Bool} {c : Char}

theorem satisfy_ok (h : admits c = true) : satisfy admits (c :: rest) = .ok (c, rest) :=
  if_pos h

theorem satisfy_error (h : Shuns admits text) : satisfy admits text = .error text := by
  cases text with
  | nil => rfl
  | cons c rest => exact if_neg (by rw [h c rfl]; decide)

theorem char_ok (c : Char) (rest : List Char) : char c (c :: rest) = .ok (c, rest) :=
  satisfy_ok (beq_self_eq_true c)

theorem char_error (h : Shuns (· == c) text) : char c text = .error text := satisfy_error h

theorem word_ok (w rest : List Char) : word w (w ++ rest) = .ok ((), rest) := by
  have hprefix : w.isPrefixOf (w ++ rest) = true :=
    List.isPrefixOf_iff_prefix.2 (List.prefix_append w rest)
  rw [word, if_pos hprefix, List.drop_left]

theorem run_append {run : List Char} (hrun : ∀ c ∈ run, admits c = true)
    (hrest : Shuns admits rest) : Parser.run admits (run ++ rest) = .ok (run, rest) := by
  rw [Parser.run, List.takeWhile_append_of_pos hrun, List.dropWhile_append_of_pos hrun]
  cases rest with
  | nil => rw [List.takeWhile_nil, List.dropWhile_nil, List.append_nil]
  | cons c rest =>
    have hc : ¬admits c = true := by rw [hrest c rfl]; decide
    rw [List.takeWhile_cons_of_neg hc, List.dropWhile_cons_of_neg hc, List.append_nil]

theorem run1_append {run : List Char} (hne : run ≠ []) (hrun : ∀ c ∈ run, admits c = true)
    (hrest : Shuns admits rest) : run1 admits (run ++ rest) = .ok (run, rest) := by
  cases run with
  | nil => exact absurd rfl hne
  | cons c run =>
    rw [run1, List.cons_append, bind_apply_ok (satisfy_ok (hrun c (.head _))),
      bind_apply_ok (run_append (fun d hd => hrun d (.tail _ hd)) hrest)]
    rfl

theorem run1_error (h : Shuns admits text) : run1 admits text = .error text :=
  bind_apply_error (satisfy_error h)

end Characters

/-! ### Values -/

theorem map_apply_ok {f : α → β} (h : p text = .ok (a, rest)) :
    (f <$> p) text = .ok (f a, rest) := bind_apply_ok h

/-- What a value is computed from has been read. -/
theorem exists_of_map_eq_ok {f : α → β} {b : β} (h : (f <$> p) text = .ok (b, rest)) :
    ∃ a, p text = .ok (a, rest) ∧ f a = b := by
  cases hread : p text with
  | error place => exact nomatch (bind_apply_error (f := fun a => pure (f a)) hread).symm.trans h
  | ok result =>
    obtain ⟨rfl, rfl⟩ := Prod.mk.inj (Except.ok.inj ((map_apply_ok hread).symm.trans h))
    exact ⟨result.1, rfl, rfl⟩

/-- What a choice reads one of its alternatives reads. -/
theorem or_of_orElse_eq_ok {q : Parser α} {result : α × List Char}
    (h : (p <|> q) text = .ok result) : p text = .ok result ∨ q text = .ok result := by
  cases hread : p text with
  | error place => exact .inr ((orElse_apply_error hread).symm.trans h)
  | ok other =>
    obtain ⟨a, rest⟩ := other
    exact .inl ((orElse_apply_ok hread).symm.trans h)

theorem opt_apply_ok (h : p text = .ok (a, rest)) : opt p text = .ok (some a, rest) := by
  rw [opt, h]

theorem opt_apply_error (h : p text = .error place) : opt p text = .ok (none, text) := by
  rw [opt, h]

theorem guarded_apply_ok {admits : α → Bool} (h : p text = .ok (a, rest))
    (ha : admits a = true) : guarded p admits text = .ok (a, rest) := by
  rw [guarded, h]
  exact if_pos ha

theorem guarded_apply_refused {admits : α → Bool} (h : p text = .ok (a, rest))
    (ha : admits a = false) : guarded p admits text = .error text := by
  rw [guarded, h]
  exact if_neg (by rw [ha]; decide)

theorem guarded_apply_error {admits : α → Bool} (h : p text = .error place) :
    guarded p admits text = .error place := by
  rw [guarded, h]

theorem mapped_apply_ok {f : α → Option β} {b : β} (h : p text = .ok (a, rest))
    (ha : f a = some b) : mapped p f text = .ok (b, rest) := by
  simp only [mapped, h, ha]

theorem manyUpTo_apply_ok {bound : Nat} {as : List α} {inner : List Char}
    (h : p text = .ok (a, inner)) (hmore : manyUpTo p bound inner = .ok (as, rest)) :
    manyUpTo p (bound + 1) text = .ok (a :: as, rest) := by
  rw [manyUpTo]
  simp only [h]
  exact bind_apply_ok hmore

theorem manyUpTo_apply_error {bound : Nat} (h : p text = .error place) :
    manyUpTo p bound text = .ok ([], text) := by
  cases bound with
  | zero => rfl
  | succ bound =>
    rw [manyUpTo]
    simp only [h]

/-! ### What a parser keeps -/

/-- **What a parser keeps**: if a text has one property and the parser reads something off its
front, the text that is left has another property, and what is read has a third. -/
def Keeps {α : Type} (before after : List Char → Prop) (p : Parser α) (post : α → Prop) : Prop :=
  ∀ ⦃text rest a⦄, before text → p text = .ok (a, rest) → after rest ∧ post a

namespace Keeps

variable {γ : Type} {I J K : List Char → Prop} {post : α → Prop}

theorem weaken {weaker : α → Prop} (hp : Keeps I J p post) (h : ∀ a, post a → weaker a) :
    Keeps I J p weaker := by
  intro text rest a hbefore hread
  obtain ⟨hafter, ha⟩ := hp hbefore hread
  exact ⟨hafter, h a ha⟩

theorem pure {a : α} (h : post a) : Keeps I I (Pure.pure a : Parser α) post := by
  intro text rest a' hbefore hread
  obtain ⟨rfl, rfl⟩ := Prod.mk.inj (Except.ok.inj hread)
  exact ⟨hbefore, h⟩

theorem fail : Keeps I J (Parser.fail : Parser α) post :=
  fun _ _ _ _ hread => nomatch hread

theorem bind {q : α → Parser β} {next : β → Prop} (hp : Keeps I J p post)
    (hq : ∀ a, post a → Keeps J K (q a) next) : Keeps I K (p >>= q) next := by
  intro text rest b hbefore hread
  cases hfirst : p text with
  | error place =>
    rw [bind_apply_error hfirst] at hread
    cases hread
  | ok result =>
    obtain ⟨a, inner⟩ := result
    rw [bind_apply_ok hfirst] at hread
    obtain ⟨hbetween, ha⟩ := hp hbefore hfirst
    exact hq a ha hbetween hread

theorem map {g : α → β} {next : β → Prop} (hp : Keeps I J p fun a => next (g a)) :
    Keeps I J (g <$> p) next :=
  hp.bind fun _ ha => .pure ha

theorem orElse {q : Parser α} (hp : Keeps I J p post) (hq : Keeps I J q post) :
    Keeps I J (p <|> q) post := by
  intro text rest a hbefore hread
  cases hfirst : p text with
  | error place =>
    rw [orElse_apply_error hfirst] at hread
    exact hq hbefore hread
  | ok result =>
    rw [orElse_apply_ok hfirst] at hread
    exact hp hbefore (hfirst.trans hread)

theorem opt (hp : Keeps I I p post) : Keeps I I (Parser.opt p) fun o => ∀ a ∈ o, post a := by
  intro text rest o hbefore hread
  cases hfirst : p text with
  | error place =>
    rw [opt_apply_error hfirst] at hread
    obtain ⟨rfl, rfl⟩ := Prod.mk.inj (Except.ok.inj hread)
    exact ⟨hbefore, fun _ ha => nomatch ha⟩
  | ok result =>
    rw [opt_apply_ok hfirst] at hread
    obtain ⟨rfl, rfl⟩ := Prod.mk.inj (Except.ok.inj hread)
    obtain ⟨hafter, ha⟩ := hp hbefore hfirst
    exact ⟨hafter, fun a hmem => Option.mem_some.1 hmem ▸ ha⟩

theorem guarded {admits : α → Bool} (hp : Keeps I J p post) :
    Keeps I J (Parser.guarded p admits) post := by
  intro text rest a hbefore hread
  rw [Parser.guarded] at hread
  split at hread
  · next a' inner hfirst =>
    split at hread
    · exact hp hbefore (hfirst.trans hread)
    · cases hread
  · cases hread

theorem mapped {g : α → Option β} (hp : Keeps I J p post) :
    Keeps I J (Parser.mapped p g) fun _ => True := by
  intro text rest b hbefore hread
  rw [Parser.mapped] at hread
  split at hread
  · next a inner hfirst =>
    split at hread
    · obtain ⟨rfl, rfl⟩ := Prod.mk.inj (Except.ok.inj hread)
      exact ⟨(hp hbefore hfirst).1, trivial⟩
    · cases hread
  · cases hread

theorem manyUpTo (hp : Keeps I I p post) (bound : Nat) :
    Keeps I I (Parser.manyUpTo p bound) fun as => ∀ a ∈ as, post a := by
  induction bound with
  | zero => exact .pure fun _ ha => absurd ha List.not_mem_nil
  | succ bound ih =>
    have hmore (a : α) (ha : post a) :
        Keeps I I (do return a :: (← Parser.manyUpTo p bound)) fun as => ∀ a ∈ as, post a :=
      ih.bind fun as has => .pure (List.forall_mem_cons.2 ⟨ha, has⟩)
    intro text rest as hbefore hread
    rw [Parser.manyUpTo] at hread
    dsimp only at hread
    split at hread
    · next a inner hfirst =>
      obtain ⟨hbetween, ha⟩ := hp hbefore hfirst
      exact hmore a ha hbetween hread
    · obtain ⟨rfl, rfl⟩ := Prod.mk.inj (Except.ok.inj hread)
      exact ⟨hbefore, fun _ ha => absurd ha List.not_mem_nil⟩

theorem many (hp : Keeps I I p post) :
    Keeps I I (Parser.many p) fun as => ∀ a ∈ as, post a :=
  fun text _ _ hbefore hread => hp.manyUpTo text.length hbefore hread

theorem many1 (hp : Keeps I I p post) :
    Keeps I I (Parser.many1 p) fun as => ∀ a ∈ as, post a :=
  hp.bind fun _ ha => hp.many.bind fun _ has => .pure (List.forall_mem_cons.2 ⟨ha, has⟩)

/-- Between two delimiters a text may have another property, and what the opening one says may
be used. -/
theorem between {opening : Parser β} {closing : Parser γ} {room : Prop}
    (hopening : Keeps I J opening fun _ => room) (hp : Keeps J J p post)
    (hclosing : Keeps J I closing fun _ => True) :
    Keeps I I (Parser.between opening p closing) fun a => room ∧ post a :=
  hopening.bind fun _ hroom => hp.bind fun _ ha => hclosing.bind fun _ _ => .pure ⟨hroom, ha⟩

end Keeps

end QueryAccess.Parser
