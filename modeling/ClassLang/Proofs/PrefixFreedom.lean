/-
  ClassLang/Proofs/PrefixFreedom.lean
  ===================================
  **No accepted program begins with another one.**

  The pass over an accepted list of tokens has used them up when it comes behind the
  right brace of the entry point.  No test on the way there can tell whether more
  tokens follow, so with tokens added the pass comes to the same brace; all that it
  then does is to reject the first one of them (`run_program_overrun`).

  The main statement is `accepted_prefix_free`.
-/
import ClassLang.Proofs.ProgramParsing

namespace ClassLang

open Cursor (Takes)

/-- Behind the lexemes taken lies what lay behind them before. -/
theorem Cursor.Takes.ahead_eq {a b : Cursor} {ls : List Lexeme} (h : a.Takes ls b) :
    b.ahead = a.ahead.drop ls.length := by
  induction h with
  | nil c => rfl
  | cons _ ih => exact ih

/-- Tokens that begin with the given lexemes can be taken up to the others. -/
theorem Cursor.Takes.of_append {tokens : List Token} {ls : List Lexeme}
    (h : ls = tokens.map Token.lexeme) (more : List Token) :
    ∃ c, (Cursor.ofTokens (tokens ++ more)).Takes ls c ∧ c.ahead = more := by
  have hlexemes : (Cursor.ofTokens (tokens ++ more)).ahead.map Token.lexeme =
      ls ++ more.map Token.lexeme := by
    rw [h, ← List.map_append]
    rfl
  obtain ⟨c, htakes, -⟩ := Takes.of_lexemes hlexemes
  refine ⟨c, htakes, ?_⟩
  rw [htakes.ahead_eq, h, List.length_map]
  exact List.drop_left

namespace Pass

variable {S S₁ S₂ : Standing} {c c' : Cursor}

/-- A program with a token behind it is read like the program alone, up to that token, and the token
    is rejected. -/
theorem run_program_overrun {p : Tree.Program} {ms : List (List Routine)} {entry : Routine}
    {token : Token} {rest : List Token} (log : Array Event) (htakes : c.Takes p.yield c')
    (hahead : c'.ahead = token :: rest)
    (hclasses : S.each? Standing.class? p.classes = some (ms, S₁))
    (hmain : S₁.main? p.main = some (entry, S₂)) :
    ∃ log', program.run (S.state c log) =
      .stopped (.expected .endOfProgram token.lexeme) (S₂.state ⟨some token, rest⟩ log') := by
  obtain ⟨d, htakesClasses, htakesMain⟩ := Takes.append_iff.1 htakes
  have hword : d.nextIs (Lexeme.isWord .mainDef) = true := by
    rw [Tree.mainYield] at htakesMain
    rw [htakesMain.nextIs]
    rfl
  have hclass : d.start? (word? .classDef) = none := by
    rw [Tree.mainYield] at htakesMain
    rw [htakesMain.start?]
    rfl
  obtain ⟨log₁, hrunClasses⟩ : Ends (Reading.many (word? .classDef) fun _ => classDefinition)
      (S.state c log) ms S₁ d :=
    ends_classes.2 ⟨p.classes, htakesClasses, hclass, hclasses⟩
  obtain ⟨log₂, hrunMain⟩ : Ends entryPoint (S₁.state d log₁) entry S₂ c' :=
    ends_entryPoint.2 ⟨p.main, p.main_ne, htakesMain, hmain⟩
  have hmore : d.atEnd = false := by
    have hlength := htakesMain.remaining
    rw [Tree.mainYield, List.length_cons] at hlength
    rw [Cursor.atEnd, List.isEmpty_eq_false_iff]
    intro hnil
    rw [Cursor.remaining, Cursor.remaining, hnil] at hlength
    cases hlength
  obtain ⟨last, ahead⟩ := c'
  obtain rfl : ahead = token :: rest := hahead
  refine ⟨log₂, ?_⟩
  have hends : ∀ (S : Standing) (d : Cursor) (log : Array Event),
      atEnd.run (S.state d log) = .done d.atEnd (S.state d log) := fun _ _ _ => rfl
  have hnext : (liftM (Reader.nextIs (Lexeme.isWord .mainDef)) : Pass Bool).run
      (S₁.state d log₁) = .done (d.nextIs (Lexeme.isWord .mainDef)) (S₁.state d log₁) := rfl
  have hover : (Cursor.mk last (token :: rest)).atEnd = false := rfl
  rw [program, Reading.run_bind, hrunClasses]
  simp only [Reading.run_bind, hends, hmore, Bool.false_eq_true, if_false, hnext, hword,
    Bool.not_true, hrunMain, hover, Bool.not_false, if_true]
  rfl

end Pass

/-- The tokens of an accepted program, with others behind them, are rejected at the first one of the
    others. -/
theorem compileTokens_overrun {tokens : List Token} {compilation : Compilation}
    (h : compileTokens tokens = .ok compilation) (token : Token) (rest : List Token) :
    compileTokens (tokens ++ token :: rest) =
      .error ⟨.expected .endOfProgram token.lexeme, token.position⟩ := by
  obtain ⟨p, hyield, hcompile⟩ := compileTokens_eq_ok_iff.1 h
  obtain ⟨ms, S₁, hclasses, entry, S₂, hmain, -⟩ := Tree.Program.compile?_eq_some.1 hcompile
  obtain ⟨c, htakes, hahead⟩ := Takes.of_append hyield (token :: rest)
  have hinitial : State.initial (tokens ++ token :: rest) =
      Standing.initial.state (.ofTokens (tokens ++ token :: rest)) #[] := rfl
  obtain ⟨log, hrun⟩ := Pass.run_program_overrun #[] htakes hahead hclasses hmain
  rw [compileTokens, passOver, hinitial, hrun]
  rfl

/-- The accepted lists of tokens are prefix-free: behind such a list any token is a syntax error,
    reported at that token, so no proper prefix of it is accepted. -/
theorem accepted_prefix_free {tokens : List Token} {compilation : Compilation}
    (h : compileTokens tokens = .ok compilation) :
    (∀ (token : Token) (rest : List Token), ∃ located,
      compileTokens (tokens ++ token :: rest) = .error located ∧
      located.fault = .expected .endOfProgram token.lexeme ∧
      located.fault.category = .grammar ∧
      located.position = token.position) ∧
    ∀ shorter : List Token, shorter <+: tokens → shorter ≠ tokens →
      ∀ other, compileTokens shorter ≠ .ok other := by
  constructor
  · intro token rest
    exact ⟨_, compileTokens_overrun h token rest, rfl, rfl, rfl⟩
  · intro shorter hprefix hne other haccepted
    obtain ⟨more, hmore⟩ := hprefix
    cases more with
    | nil =>
      rw [List.append_nil] at hmore
      exact hne hmore
    | cons token rest =>
      have hrejected := compileTokens_overrun haccepted token rest
      rw [hmore, h] at hrejected
      cases hrejected

/-- A program of one statement, at the places where its tokens stand on one line. -/
def smallestTokens : List Token :=
  [⟨.keyword .mainDef, ⟨1, 1⟩⟩, ⟨.punctuation .leftParen, ⟨1, 5⟩⟩,
    ⟨.punctuation .rightParen, ⟨1, 6⟩⟩, ⟨.punctuation .leftBrace, ⟨1, 8⟩⟩,
    ⟨.keyword .print, ⟨1, 10⟩⟩, ⟨.punctuation .leftParen, ⟨1, 15⟩⟩, ⟨.number "1", ⟨1, 16⟩⟩,
    ⟨.punctuation .rightParen, ⟨1, 17⟩⟩, ⟨.punctuation .semicolon, ⟨1, 18⟩⟩,
    ⟨.punctuation .rightBrace, ⟨1, 20⟩⟩]

theorem accepted_prefix_free_smallest :
    (∃ located, compileTokens (smallestTokens ++ [⟨.keyword .print, ⟨1, 22⟩⟩]) = .error located ∧
      located.fault.category = .grammar ∧ located.position = ⟨1, 22⟩) ∧
    ∀ other, compileTokens smallestTokens.dropLast ≠ .ok other := by
  have hok : (compileTokens smallestTokens).isOk = true := by
    decide +kernel
  cases hcompile : compileTokens smallestTokens with
  | error located =>
    rw [hcompile] at hok
    cases hok
  | ok compilation =>
    obtain ⟨hoverrun, hshorter⟩ := accepted_prefix_free hcompile
    obtain ⟨located, hrejected, -, hcategory, hposition⟩ := hoverrun ⟨.keyword .print, ⟨1, 22⟩⟩ []
    refine ⟨⟨located, hrejected, hcategory, hposition⟩, hshorter _ ?_ (by decide)⟩
    exact List.dropLast_prefix smallestTokens

end ClassLang
