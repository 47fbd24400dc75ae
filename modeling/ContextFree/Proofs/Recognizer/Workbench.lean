/-
# Recognition over a run of tasks

Between two questions the start of a grammar may be assigned, and right-hand
sides may be added to its rules and to the rule map that it was built from.
`Follows` describes the workbench after any tasks by these tasks alone: the index
is still the one that was made when the grammar was built, the start is the last
one assigned, and either rule map has gained exactly what was added to it. Each
task keeps this (`Follows.perform`), with or without a fault, and so does every
run of tasks (`Follows.after`).

The main statement is `recognition_follows_source`: whatever is done to a grammar,
it answers about tables and producers as it did at first, and it recognizes the
words that its current start derives by the rules it was built from.
-/

import ContextFree.Proofs.Recognizer.Cells
import ContextFree.Recognizer.Workbench

namespace ContextFree

/-! ### Rule maps that grow -/

namespace RuleMap

/-- `rules.Gains added extended`: the rule map `extended` is `rules` with the
right-hand sides in `added`, each after those that its variable had before it.
Variables that had none come to the end, in the order in which they got their first. -/
structure Gains (rules : RuleMap) (added : List (Variable × Candidate)) (extended : RuleMap) :
    Prop where
  keys : extended.keys = rules.keys ++ ((added.map Prod.fst).filter (· ∉ rules.keys)).eraseDups
  candidates : ∀ v, (extended.get? v).getD [] =
    (rules.get? v).getD [] ++ (added.filter (·.1 = v)).map Prod.snd

/-- A rule map that is left alone has gained nothing. -/
theorem gains_nil (rules : RuleMap) : rules.Gains [] rules where
  keys := by simp
  candidates := by simp

variable {rules extended : RuleMap} {added : List (Variable × Candidate)}

/-- The variables are those of the rule map and those that something was added for. -/
theorem Gains.mem_keys (h : rules.Gains added extended) {v : Variable} :
    v ∈ extended.keys ↔ v ∈ rules.keys ∨ v ∈ added.map Prod.fst := by
  rw [h.keys, List.mem_append, List.mem_eraseDups, List.mem_filter, decide_eq_true_iff]
  by_cases hv : v ∈ rules.keys <;> simp [hv]

/-- One more right-hand side keeps the place of a variable that is there, and puts
a new one to the end. -/
theorem keys_addRule (rules : RuleMap) (v : Variable) (c : Candidate) :
    (rules.addRule v c).keys = if v ∈ rules.keys then rules.keys else rules.keys ++ [v] := by
  unfold addRule
  split
  · rename_i hv
    exact Registry.keys_insert_of_mem hv
  · rename_i hv
    rw [Registry.keys, Registry.entries_insert_of_not_mem hv, List.map_append]
    rfl

/-- One more right-hand side comes after the others of its variable. -/
theorem candidates_addRule (rules : RuleMap) (v x : Variable) (c : Candidate) :
    ((rules.addRule v c).get? x).getD [] =
      (rules.get? x).getD [] ++ if v = x then [c] else [] := by
  rw [addRule, Registry.get?_insert]
  by_cases hx : v = x
  · subst hx
    simp
  · simp [hx, Ne.symm hx]

/-- **One more right-hand side** is gained when it is added. -/
theorem Gains.addRule (h : rules.Gains added extended) (v : Variable) (c : Candidate) :
    rules.Gains (added ++ [(v, c)]) (extended.addRule v c) where
  keys := by
    rw [keys_addRule, List.map_append, List.map_singleton, List.filter_append]
    by_cases hold : v ∈ rules.keys
    · simp [hold, h.keys]
    · have hone : [v].filter (· ∉ rules.keys) = [v] := by simp [hold]
      have hseen : v ∈ (added.map Prod.fst).filter (· ∉ rules.keys) ↔ v ∈ extended.keys := by
        rw [h.mem_keys, List.mem_filter, decide_eq_true_iff]
        simp [hold]
      rw [hone, eraseDups_concat]
      by_cases hnew : v ∈ extended.keys
      · rw [if_pos hnew, if_pos (hseen.2 hnew), h.keys]
      · rw [if_neg hnew, if_neg (mt hseen.1 hnew), h.keys, List.append_assoc]
  candidates := by
    intro x
    rw [candidates_addRule, h.candidates, List.filter_append, List.map_append, List.append_assoc]
    by_cases hx : v = x <;> simp [hx]

section

variable {α : Type} {f : α → Option (Variable × Candidate)} {done : List α} {a : α}

/-- What adds nothing leaves what was gained. -/
theorem Gains.concat_none (h : rules.Gains (done.filterMap f) extended) (ha : f a = none) :
    rules.Gains ((done ++ [a]).filterMap f) extended := by
  rwa [List.filterMap_append, List.filterMap_cons_none ha, List.filterMap_nil, List.append_nil]

/-- What adds a right-hand side gains it. -/
theorem Gains.concat_some (h : rules.Gains (done.filterMap f) extended) {v : Variable}
    {c : Candidate} (ha : f a = some (v, c)) :
    rules.Gains ((done ++ [a]).filterMap f) (extended.addRule v c) := by
  rw [List.filterMap_append, List.filterMap_cons_some ha, List.filterMap_nil]
  exact h.addRule v c

end

end RuleMap

/-- The empty word is derived by no variable. -/
theorem RuleMap.not_derives_nil (rules : RuleMap) (v : Variable) : ¬rules.Derives v [] := fun h =>
  Nat.lt_irrefl 0 (derives_iff_yields.1 h).length_pos

namespace Workbench

/-! ### Tasks -/

/-- The start that a task assigns. -/
def Task.start? : Task → Option Variable
  | .setStart v => some v
  | _ => none

/-- The right-hand side that a task adds to the rules of the grammar. -/
def Task.rule? : Task → Option (Variable × Candidate)
  | .addRule v c => some (v, c)
  | _ => none

/-- The right-hand side that a task adds to the rule map the grammar was built from. -/
def Task.sourceRule? : Task → Option (Variable × Candidate)
  | .addSourceRule v c => some (v, c)
  | _ => none

/-- The questions that the index alone answers: those about tables and producers. -/
def Task.AsksIndex : Task → Prop
  | .ask _ _ => True
  | .sameTable _ _ => True
  | .producersOfTerminal _ => True
  | .producersOfPair _ _ => True
  | _ => False

/-- The same index gives the same answers. -/
theorem fst_perform_congr {w u : Workbench} {task : Task} (hindex : w.grammar.index = u.grammar.index)
    (htask : task.AsksIndex) : (w.perform task).1 = (u.perform task).1 := by
  cases task with
  | ask word query => simp only [perform, hindex]
  | sameTable word other => simp only [perform, hindex]
  | producersOfTerminal t => simp only [perform, hindex]
  | producersOfPair a b => simp only [perform, hindex]
  | recognize _ | countRules | setStart _ | addRule _ _ | addSourceRule _ _ => exact htask.elim

/-- A word is recognized, or not, by the current start. -/
theorem perform_recognize {rules : RuleMap} {w : Workbench}
    (hix : ProducerIndex.ofRules rules = .ok w.grammar.index) {word : List Terminal}
    (hword : word ≠ []) : ∃ accepted, (w.perform (.recognize word)).1 = .ok (.truth accepted) ∧
      (accepted = true ↔ rules.Derives w.grammar.start word) := by
  obtain ⟨accepted, events, hrun, hiff⟩ :=
    NormalGrammar.exists_recognize hix w.trace.isSome hword
  refine ⟨accepted, ?_, hiff⟩
  simp only [perform, hrun]

/-- The empty word is refused, and the workbench stays as it was. -/
theorem perform_recognize_nil (w : Workbench) :
    w.perform (.recognize []) = (.error .emptyWord, w) :=
  rfl

/-! ### Runs -/

/-- The workbench after these tasks. -/
def after (w : Workbench) (tasks : List Task) : Workbench :=
  ((w.performAll tasks).map Prod.snd).getLastD w

/-- Without tasks the workbench is what it was. -/
@[simp] theorem after_nil (w : Workbench) : w.after [] = w := rfl

/-- The first task is performed before the others. -/
@[simp] theorem after_cons (w : Workbench) (task : Task) (tasks : List Task) :
    w.after (task :: tasks) = (w.perform task).2.after tasks := by
  rw [after, performAll, List.map_cons, List.getLastD_cons]
  rfl

/-- Each task of a run is performed on the workbench after the tasks before it. -/
theorem getElem?_performAll (w : Workbench) (before : List Task) (task : Task)
    (later : List Task) : (w.performAll (before ++ task :: later))[before.length]? =
      some ((w.after before).perform task) := by
  induction before generalizing w with
  | nil => rfl
  | cons first before ih =>
    rw [after_cons, List.cons_append, performAll, List.length_cons, List.getElem?_cons_succ]
    exact ih (w.perform first).2

/-- What a workbench is after the tasks `done`, if it had these start, rules and index
at first. -/
structure Follows (start : Variable) (rules : RuleMap) (index : ProducerIndex) (done : List Task)
    (w : Workbench) : Prop where
  index_eq : w.grammar.index = index
  start_eq : w.grammar.start = (done.filterMap Task.start?).getLastD start
  gains : rules.Gains (done.filterMap Task.rule?) w.grammar.rules
  sourceGains : rules.Gains (done.filterMap Task.sourceRule?) w.source

variable {start : Variable} {rules : RuleMap} {index : ProducerIndex} {done : List Task}
  {w : Workbench}

/-- A task that assigns nothing leaves the last start that was assigned. -/
theorem getLastD_start?_concat {task : Task} (htask : task.start? = none) :
    ((done ++ [task]).filterMap Task.start?).getLastD start =
      (done.filterMap Task.start?).getLastD start := by
  rw [List.filterMap_append, List.filterMap_cons_none htask, List.filterMap_nil, List.append_nil]

/-- A task that assigns nothing and adds nothing leaves all of this as it was. -/
theorem Follows.frame (h : Follows start rules index done w) {u : Workbench} {task : Task}
    (hgrammar : u.grammar = w.grammar) (hsource : u.source = w.source)
    (hstart : task.start? = none) (hrule : task.rule? = none)
    (hsourceRule : task.sourceRule? = none) : Follows start rules index (done ++ [task]) u where
  index_eq := by rw [hgrammar, h.index_eq]
  start_eq := by rw [hgrammar, h.start_eq, getLastD_start?_concat hstart]
  gains := by rw [hgrammar]; exact h.gains.concat_none hrule
  sourceGains := by rw [hsource]; exact h.sourceGains.concat_none hsourceRule

/-- **One task** is followed by a workbench that has what was assigned or added,
whether the task faults or not. -/
theorem Follows.perform (h : Follows start rules index done w) (task : Task) :
    Follows start rules index (done ++ [task]) (w.perform task).2 := by
  cases task with
  | recognize word =>
    have hframe : (w.perform (.recognize word)).2.grammar = w.grammar ∧
        (w.perform (.recognize word)).2.source = w.source := by
      simp only [Workbench.perform]
      split
      · exact ⟨rfl, rfl⟩
      · exact ⟨rfl, rfl⟩
    exact h.frame hframe.1 hframe.2 rfl rfl rfl
  | ask _ _ | sameTable _ _ | producersOfTerminal _ | producersOfPair _ _ | countRules =>
    exact h.frame rfl rfl rfl rfl rfl
  | setStart v =>
    exact {
      index_eq := h.index_eq
      start_eq := by rw [List.filterMap_append]; exact List.getLastD_concat.symm
      gains := h.gains.concat_none rfl
      sourceGains := h.sourceGains.concat_none rfl }
  | addRule v c =>
    exact {
      index_eq := h.index_eq
      start_eq := h.start_eq.trans (getLastD_start?_concat rfl).symm
      gains := h.gains.concat_some rfl
      sourceGains := h.sourceGains.concat_none rfl }
  | addSourceRule v c =>
    exact {
      index_eq := h.index_eq
      start_eq := h.start_eq.trans (getLastD_start?_concat rfl).symm
      gains := h.gains.concat_none rfl
      sourceGains := h.sourceGains.concat_some rfl }

/-- **Every run of tasks** is followed in the same way. -/
theorem Follows.after (h : Follows start rules index done w) (tasks : List Task) :
    Follows start rules index (done ++ tasks) (w.after tasks) := by
  induction tasks generalizing done w with
  | nil => rwa [List.append_nil]
  | cons task tasks ih =>
    rw [after_cons, List.append_cons]
    exact ih (h.perform task)

/-- A new workbench follows from no task at all. -/
theorem exists_follows {trace : Option (List Event)} (hw : ofRules start rules trace = .ok w) :
    ProducerIndex.ofRules rules = .ok w.grammar.index ∧
      Follows start rules w.grammar.index [] w := by
  unfold ofRules at hw
  cases hg : NormalGrammar.ofRules start rules with
  | error f =>
    rw [hg] at hw
    cases hw
  | ok g =>
    rw [hg] at hw
    cases hw
    obtain ⟨ix, hix, rfl⟩ := NormalGrammar.exists_index hg
    exact ⟨hix, rfl, rfl, rules.gains_nil, rules.gains_nil⟩

/-- **Recognition follows the rules a grammar was built from.** Whatever tasks are
performed on a grammar that was accepted, with or without faults, each of them
finds the workbench that the tasks before it have left, and there every question
about tables and producers is answered as it was at first; a word is recognized
exactly when the start that was assigned last derives it by the rules at first,
where the empty word is the only one that faults; and the rules of the grammar,
like the rule map that it was built from, have gained exactly what was added to them. -/
theorem recognition_follows_source {trace : Option (List Event)}
    (hw : ofRules start rules trace = .ok w) (tasks : List Task) :
    (∀ task later, (w.performAll (tasks ++ task :: later))[tasks.length]? =
      some ((w.after tasks).perform task)) ∧
    (∀ task, task.AsksIndex → ((w.after tasks).perform task).1 = (w.perform task).1) ∧
    (∀ word, ((w.after tasks).perform (.recognize word)).1 = .ok (.truth true) ↔
      rules.Derives ((tasks.filterMap Task.start?).getLastD start) word) ∧
    (∀ word, word ≠ [] → ∃ accepted,
      ((w.after tasks).perform (.recognize word)).1 = .ok (.truth accepted)) ∧
    ((w.after tasks).perform (.recognize [])).1 = .error .emptyWord ∧
    rules.Gains (tasks.filterMap Task.rule?) (w.after tasks).grammar.rules ∧
    rules.Gains (tasks.filterMap Task.sourceRule?) (w.after tasks).source := by
  obtain ⟨hix, hfirst⟩ := exists_follows hw
  have h : Follows start rules w.grammar.index tasks (w.after tasks) := hfirst.after tasks
  have hrecognize : ∀ word, word ≠ [] → ∃ accepted,
      ((w.after tasks).perform (.recognize word)).1 = .ok (.truth accepted) ∧
        (accepted = true ↔
          rules.Derives ((tasks.filterMap Task.start?).getLastD start) word) := by
    intro word hword
    rw [← h.start_eq]
    exact perform_recognize (by rw [h.index_eq, hix]) hword
  refine ⟨w.getElem?_performAll tasks, fun task => fst_perform_congr h.index_eq, fun word => ?_,
    fun word hword => ?_, by rw [perform_recognize_nil], h.gains, h.sourceGains⟩
  · by_cases hword : word = []
    · subst hword
      rw [perform_recognize_nil]
      exact iff_of_false nofun (rules.not_derives_nil _)
    · obtain ⟨accepted, hperform, hiff⟩ := hrecognize word hword
      rw [hperform, ← hiff]
      cases accepted <;> simp
  · obtain ⟨accepted, hperform, -⟩ := hrecognize word hword
    exact ⟨accepted, hperform⟩

/-- Tasks that assign the start and add right-hand sides to an old and to a new variable,
with two faults among them. -/
def changes : List Task :=
  [.setStart ⟨"T"⟩, .addRule ⟨"T"⟩ (.terminal ⟨"b"⟩), .recognize [],
    .addSourceRule ⟨"S"⟩ (.terminal ⟨"c"⟩), .ask [⟨"a"⟩] (.cell 7 0),
    .addRule ⟨"S"⟩ (.pair ⟨"T"⟩ ⟨"T"⟩), .setStart ⟨"S"⟩]

/-- After these tasks the start is `S` again, and recognition is by `S -> S S | 'a'` as before;
the rules that were added are there, but no word is recognized by them. -/
theorem recognition_follows_source_ambiguous :
    ∃ w, ofRules ⟨"S"⟩ NormalGrammar.ambiguous none = .ok w ∧
    (∀ task later, (w.performAll (changes ++ task :: later))[7]? =
      some ((w.after changes).perform task)) ∧
    (∀ task, task.AsksIndex → ((w.after changes).perform task).1 = (w.perform task).1) ∧
    (∀ word, ((w.after changes).perform (.recognize word)).1 = .ok (.truth true) ↔
      NormalGrammar.ambiguous.Derives ⟨"S"⟩ word) ∧
    (∀ word, word ≠ [] → ∃ accepted,
      ((w.after changes).perform (.recognize word)).1 = .ok (.truth accepted)) ∧
    ((w.after changes).perform (.recognize [])).1 = .error .emptyWord ∧
    NormalGrammar.ambiguous.Gains
      [(⟨"T"⟩, .terminal ⟨"b"⟩), (⟨"S"⟩, .pair ⟨"T"⟩ ⟨"T"⟩)] (w.after changes).grammar.rules ∧
    NormalGrammar.ambiguous.Gains [(⟨"S"⟩, .terminal ⟨"c"⟩)] (w.after changes).source :=
  ⟨_, rfl, recognition_follows_source rfl changes⟩

end Workbench
end ContextFree
