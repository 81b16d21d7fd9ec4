/-
The syntax of sources, as a grammar.

What a source looks like is said here without a word on how it is read. Each predicate relates a text to
what its front reads as, and to the text behind that; the rules of the grammar are its constructors. A text
is a source if all of it reads as a grammar, with nothing behind but layout.

Layout stands in front of a token, never behind one, and it need not be all the layout there is; nor need a
name be as long as it could be. A choice of this kind that a reader would not make comes to nothing, because
what stands behind the token then fits no rule. There are two places where the grammar looks at what is
behind. A comment ends where its line does. And a word that could say a rule's kind is never the name of a
rule if white space follows that parts it from a name.
-/
import UtteranceGrammar.Source.Token

set_option autoImplicit false

namespace UtteranceGrammar

/-! ## Layout -/

namespace Layout

/-- A line ends here, or the source does. -/
def EndsLine (s : Text) : Prop := s = [] ∨ s.head? = some '\n' ∨ ∃ r, s = '\r' :: '\n' :: r

/-- The characters between the opener of a comment and the end of its line. -/
def IsComment (line : Text) : Prop := ∀ c ∈ line, c ≠ '\n' ∧ c ≠ '\r'

/-- The first text is layout with the second behind it. -/
inductive Before : Text → Text → Prop where
  | nothing (s : Text) : Before s s
  | blank {c : Char} {s r : Text} (hc : Text.isBlank c = true) (rest : Before s r) :
      Before (c :: s) r
  | comment {opener line s r : Text} (hopener : opener = ['#'] ∨ opener = ['/', '/'])
      (hline : IsComment line) (hend : EndsLine s) (rest : Before s r) :
      Before (opener ++ (line ++ s)) r

end Layout

/-! ## Tokens -/

namespace Token

/-- The name has the form of a name. -/
def IsName (id : Name) : Prop :=
  ∃ c s, id.toList = c :: s ∧ startsName c = true ∧ ∀ d ∈ s, continuesName d = true

/-- The word says this kind, in letters of any case. -/
inductive KindWord : RuleKind → Text → Prop where
  | entity {w : Text} (h : w.map Char.toLower = "entity".toList) : KindWord .entity w
  | intent {w : Text} (h : w.map Char.toLower = "intent".toList) : KindWord .intent w

/-- The content of a tuple lists the items: they are its pieces between commas, trimmed, blank ones left
out. -/
def Lists (content : Text) (items : List Text) : Prop :=
  ∃ pieces, pieces ≠ [] ∧ (∀ p ∈ pieces, ',' ∉ p) ∧ content = [','].intercalate pieces ∧
    items = (pieces.map Text.trim).filter (!·.isEmpty)

/-- With or without a question mark. -/
inductive Mark : Text → Bool → Text → Prop where
  | absent (s : Text) : Mark s false s
  | present {s r : Text} (h : Layout.Before s ('?' :: r)) : Mark s true r

end Token

/-! ## Patterns -/

mutual

/-- The front of the text reads as the term. -/
inductive Term.ReadsAs : Text → Term → Text → Prop where
  | tuple {s content e r : Text} {items : List Text} {optional : Bool}
      (hopen : Layout.Before s ('[' :: (content ++ ']' :: e)))
      (hcontent : ∀ c ∈ content, Token.inTuple c = true) (hitems : Token.Lists content items)
      (hne : items ≠ []) (hmark : Token.Mark e optional r) :
      Term.ReadsAs s (.literals items optional) r
  | name {s e r : Text} {id : Name} {optional : Bool}
      (hname : Layout.Before s (id.toList ++ e)) (hid : Token.IsName id)
      (hmark : Token.Mark e optional r) :
      Term.ReadsAs s (.reference id optional) r
  | group {s inside e e' r : Text} {body : List (List Term)} {optional : Bool}
      (hopen : Layout.Before s ('(' :: inside)) (hbody : Sequence.ReadsAs inside body e)
      (hclose : Layout.Before e (')' :: e')) (hmark : Token.Mark e' optional r) :
      Term.ReadsAs s (.group body optional) r

/-- The front of the text reads as the terms, with bars between them. -/
inductive Alternation.ReadsAs : Text → List Term → Text → Prop where
  | single {s r : Text} {t : Term} (ht : Term.ReadsAs s t r) : Alternation.ReadsAs s [t] r
  | cons {s e more r : Text} {t : Term} {ts : List Term} (ht : Term.ReadsAs s t e)
      (hbar : Layout.Before e ('|' :: more)) (hts : Alternation.ReadsAs more ts r) :
      Alternation.ReadsAs s (t :: ts) r

/-- The front of the text reads as the alternations, with commas between them. -/
inductive Sequence.ReadsAs : Text → List (List Term) → Text → Prop where
  | single {s r : Text} {g : List Term} (hg : Alternation.ReadsAs s g r) : Sequence.ReadsAs s [g] r
  | cons {s e more r : Text} {g : List Term} {gs : List (List Term)}
      (hg : Alternation.ReadsAs s g e) (hcomma : Layout.Before e (',' :: more))
      (hgs : Sequence.ReadsAs more gs r) :
      Sequence.ReadsAs s (g :: gs) r

end

/-! ## Rules and sources -/

/-- The front of the text reads as the name of a rule, behind a word for its kind if it has one. -/
inductive Rule.HeadReadsAs : Text → RuleKind → Name → Text → Prop where
  | plain {id : Name} {r : Text} (hid : Token.IsName id)
      (hword : ∀ k c, Token.KindWord k id.toList → r.head? = some c → Token.partsKindWord c = false) :
      Rule.HeadReadsAs (id.toList ++ r) .plain id r
  | kinded {k : RuleKind} {word blanks r : Text} {id : Name} (hword : Token.KindWord k word)
      (hne : blanks ≠ []) (hblanks : ∀ c ∈ blanks, Token.partsKindWord c = true)
      (hid : Token.IsName id) :
      Rule.HeadReadsAs (word ++ (blanks ++ (id.toList ++ r))) k id r

/-- The front of the text reads as the rule. -/
inductive Rule.ReadsAs : Text → Rule → Text → Prop where
  | rule {s head e text e' r : Text} {kind : RuleKind} {id : Name} {body : Sequence}
      (hlayout : Layout.Before s head) (hhead : Rule.HeadReadsAs head kind id e)
      (hcolon : Layout.Before e (':' :: text)) (hbody : Sequence.ReadsAs text body e')
      (hsemicolon : Layout.Before e' (';' :: r)) :
      Rule.ReadsAs s ⟨id, kind, body⟩ r

/-- The source reads as the grammar. -/
inductive Grammar.ReadsAs : Text → Grammar → Prop where
  | nil {s : Text} (hlayout : Layout.Before s []) : Grammar.ReadsAs s []
  | cons {s r : Text} {rule : Rule} {rules : List Rule} (hrule : Rule.ReadsAs s rule r)
      (hrules : Grammar.ReadsAs r rules) : Grammar.ReadsAs s (rule :: rules)

end UtteranceGrammar
