/-
Parses cover their sentences. What a parser has learned depends on its kind and on its last training alone, since
training never fails (`foldlM_train_concat`). A parse of either kind has the words of the sentence: undoing the
annotation of a derivation loses none, and the baseline puts each word on a leaf (`bestParse_covers`). Nothing is asked
of the labels or the shape of training trees, and no law of the arithmetic of costs.
-/
import Constituency.Parser.Basic
import Constituency.Proofs.Annotation.Yield
import Constituency.Proofs.Parser.Tagging
import Constituency.Proofs.Parser.Training

namespace Constituency

/-! ## Training -/

namespace Parser

variable {ρ κ : Type}

def kind : Parser ρ κ → ParserKind
  | pcfg _ => .pcfg
  | baseline _ => .baseline

@[simp] theorem kind_untrained (k : ParserKind) : (untrained k : Parser ρ κ).kind = k := by
  cases k <;> rfl

variable [NatCast ρ] [Div ρ] [LT ρ] [DecidableLT ρ] [Surprisal ρ κ]

theorem train_pcfg (before : Option (Model ρ κ)) {ts : Forest} {m : Model ρ κ} (h : Model.train ts = .ok m) :
    (pcfg before).train ts = .ok (pcfg (some m)) := by
  rw [train, h]
  rfl

/-- What was learned before takes no part in training. -/
theorem train_eq_untrained (p : Parser ρ κ) (ts : Forest) : p.train ts = (untrained p.kind).train ts := by
  cases p <;> rfl

/-- Training succeeds and keeps the kind of the parser. -/
theorem exists_train (p : Parser ρ κ) (ts : Forest) : ∃ q, p.train ts = .ok q ∧ q.kind = p.kind := by
  cases p with
  | pcfg m => exact ⟨_, train_pcfg m (Model.train_eq ts), rfl⟩
  | baseline b => exact ⟨baseline (some (Baseline.train ts)), rfl, rfl⟩

theorem exists_foldlM_train (p : Parser ρ κ) (tss : List Forest) :
    ∃ q, tss.foldlM train p = .ok q ∧ q.kind = p.kind := by
  induction tss generalizing p with
  | nil => exact ⟨p, rfl, rfl⟩
  | cons ts tss ih =>
    obtain ⟨q, hq, hkind⟩ := exists_train p ts
    obtain ⟨r, hr, hkind'⟩ := ih q
    exact ⟨r, by rw [List.foldlM_cons, hq]; exact hr, hkind'.trans hkind⟩

/-- After several trainings a parser has learned what the last one taught. -/
theorem foldlM_train_concat (k : ParserKind) (earlier : List Forest) (ts : Forest) :
    (earlier ++ [ts]).foldlM train (untrained k : Parser ρ κ) = (untrained k).train ts := by
  obtain ⟨q, hq, hkind⟩ := exists_foldlM_train (untrained k : Parser ρ κ) earlier
  rw [List.foldlM_append, hq]
  show q.train ts >>= pure = _
  rw [bind_pure, train_eq_untrained, hkind, kind_untrained]

end Parser

/-! ## Parses of the grammar -/

section Model

variable {ρ κ : Type} [NatCast ρ] [Add ρ] [Mul ρ] [Div ρ] [LT ρ] [DecidableLT ρ] [Surprisal ρ κ]
  [Add κ] [LT κ] [DecidableLT κ] [BEq κ]

theorem Model.words_of_parse? {m : Model ρ κ} {sentence : List String} {t : Tree} (h : m.parse? sentence = some t) :
    t.words = sentence := by
  obtain ⟨d, hd, rfl⟩ := Option.map_eq_some_iff.1 h
  rw [Tree.words_unannotate, Grammar.words_of_derive? hd]

theorem Model.label_of_parse? {rules : List (Rule ρ)} {lex : Lexicon} {sentence : List String} {t : Tree}
    (h : (⟨.ofRules rules, lex⟩ : Model ρ κ).parse? sentence = some t) : t.label = rootLabel := by
  obtain ⟨d, hd, rfl⟩ := Option.map_eq_some_iff.1 h
  obtain ⟨hlabel, hleaf, -⟩ := Grammar.licensed_of_derive? hd
  rw [Tree.label_unannotate hleaf, hlabel]
  decide +kernel

end Model

/-! ## Parses of either kind -/

section Covers

variable {ρ κ : Type} [NatCast ρ] [Add ρ] [Mul ρ] [Div ρ] [LinearOrder ρ] [Surprisal ρ κ]
  [Add κ] [LT κ] [DecidableLT κ] [BEq κ]

theorem exists_pcfg_parse (ts : Forest) : ∃ p : Parser ρ κ, (Parser.untrained .pcfg).train ts = .ok p ∧
    ∀ sentence, ∃ guess, p.bestParse sentence = .ok guess ∧
      ∀ t ∈ guess, t.words = sentence ∧ t.label = rootLabel := by
  refine ⟨_, Parser.train_pcfg none (Model.train_eq ts), fun sentence => ⟨_, rfl, fun t ht => ?_⟩⟩
  exact ⟨Model.words_of_parse? ht, Model.label_of_parse? ht⟩

theorem exists_mem_tags_iff {ts : Forest} : (Lexicon.ofTrees ts).tags ≠ [] ↔
    ∃ t ∈ ts, ∃ s ∈ t.subtrees, s.isPreterminal = true := by
  constructor
  · intro htags
    obtain ⟨tag, htag⟩ := List.exists_mem_of_ne_nil _ htags
    obtain ⟨t, ht, htag⟩ := Lexicon.mem_tags_iff.1 htag
    obtain ⟨word, hs⟩ := Tree.mem_tags_iff.1 htag
    exact ⟨t, ht, _, hs, rfl⟩
  · rintro ⟨t, ht, s, hs, hpre⟩
    obtain ⟨tag, word, rfl⟩ := Tree.isPreterminal_eq_true_iff.1 hpre
    exact List.ne_nil_of_mem (Lexicon.mem_tags_iff.2 ⟨t, ht, Tree.mem_tags_iff.2 ⟨word, hs⟩⟩)

/-- Every parse has the words of its sentence. A parse of the grammar is a tree with the root label; one of the
baseline has the best tag over each word, is there as soon as there are a word and a tag, and is never the copy of a
training tree with another number of words. -/
theorem bestParse_covers (kind : ParserKind) (earlier : List Forest) (ts : Forest) :
    ∃ p : Parser ρ κ, (earlier ++ [ts]).foldlM Parser.train (Parser.untrained kind) = .ok p ∧
      ∀ sentence, ∃ guess, p.bestParse sentence = .ok guess ∧ (∀ t ∈ guess, t.words = sentence) ∧
        match kind with
        | .pcfg => ∀ t ∈ guess, t.label = rootLabel
        | .baseline =>
          (∀ t ∈ guess, List.Forall₂ (IsBestTag ρ (Lexicon.ofTrees ts)) sentence t.tags) ∧
          (guess.isSome = true ↔ sentence ≠ [] ∧ ∃ t ∈ ts, ∃ s ∈ t.subtrees, s.isPreterminal = true) ∧
          ∀ tags t, sentence ≠ [] → List.Forall₂ (IsBestTag ρ (Lexicon.ofTrees ts)) sentence tags →
            (Baseline.train ts).known? tags = some t →
            t.withWords? sentence = some (t.withWords sentence) ∧ guess = some (t.withWords sentence) := by
  rw [Parser.foldlM_train_concat]
  cases kind with
  | pcfg =>
    obtain ⟨p, hp, hparse⟩ := exists_pcfg_parse (ρ := ρ) (κ := κ) ts
    refine ⟨p, hp, fun sentence => ?_⟩
    obtain ⟨guess, hguess, hcovers⟩ := hparse sentence
    exact ⟨guess, hguess, fun t ht => (hcovers t ht).1, fun t ht => (hcovers t ht).2⟩
  | baseline =>
    refine ⟨.baseline (some (Baseline.train ts)), rfl, fun sentence => ⟨_, rfl, ?_, ?_, ?_, ?_⟩⟩
    · exact fun t ht => (Baseline.tagged_of_parse? ht).1
    · exact fun t ht => (Baseline.tagged_of_parse? ht).2
    · rw [Baseline.isSome_parse?_iff, exists_mem_tags_iff]
    · exact fun tags t hsentence hbest hknown => Baseline.parse?_of_known? hsentence hbest hknown

end Covers

end Constituency
