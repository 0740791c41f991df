import IntLang.CommandLine.Basic

/-!
Reading the arguments of a command line with and without the flag that asks for remarks. The flag
changes nothing about the rest: arguments that are accepted without it are accepted with it in front
of them, and ask for the same otherwise.
-/
namespace IntLang.CommandLine

namespace Given

def aloud (g : Given) : Given := { g with verbose := true }

/-- How reading more arguments ends, first without and then with an earlier wish for remarks: unless
the wish is only now expressed, it makes no difference to what is read. -/
inductive Alongside (g : Given) : Except Request Given → Except Request Given → Prop
  | kept {g' : Given} (h : g'.verbose = g.verbose) : Alongside g (.ok g') (.ok g'.aloud)
  /-- The wish is expressed among the arguments themselves, where it may not come twice. -/
  | raised {g' : Given} {other : Except Request Given} (h : g'.verbose = true) :
    Alongside g (.ok g') other
  | stopped {request : Request} {other : Except Request Given}
      (h : ∀ options, request ≠ .run options) : Alongside g (.error request) other

/-- Reading goes on alongside. -/
theorem Alongside.andThen {g : Given} {r r' : Except Request Given}
    {more : Given → Except Request Given} (hmore : ∀ g, Alongside g (more g) (more g.aloud)) :
    Alongside g r r' →
      Alongside g
        (match r with
          | .ok g => more g
          | .error request => .error request)
        (match r' with
          | .ok g => more g
          | .error request => .error request) := by
  -- what is read from `g₁` on, seen from `g`
  have hfrom {g₁ : Given} {second third : Except Request Given} (h : Alongside g₁ second third) :
      (g₁.verbose = g.verbose → Alongside g second third) ∧
        (g₁.verbose = true → ∀ other, Alongside g second other) := by
    cases h with
    | kept h =>
      exact ⟨fun hkept => .kept (h.trans hkept), fun hraised _ => .raised (h.trans hraised)⟩
    | raised h => exact ⟨fun _ => .raised h, fun _ _ => .raised h⟩
    | stopped h => exact ⟨fun _ => .stopped h, fun _ _ => .stopped h⟩
  intro h
  cases h with
  | kept h => exact (hfrom (hmore _)).1 h
  | raised h => exact (hfrom (hmore _)).2 h _
  | stopped h => exact .stopped h

theorem alongside_flag (g : Given) (name : String) :
    Alongside g (g.flag name) (g.aloud.flag name) := by
  obtain ⟨inline, emitStack, verbose, _, _, _⟩ := g
  unfold flag
  split
  · cases inline with
    | true => exact .stopped fun _ => Request.noConfusion
    | false => exact .kept rfl
  · cases emitStack with
    | true => exact .stopped fun _ => Request.noConfusion
    | false => exact .kept rfl
  · cases verbose with
    | true => exact .stopped fun _ => Request.noConfusion
    | false => exact .raised rfl
  all_goals exact .stopped fun _ => Request.noConfusion

theorem alongside_flags (g : Given) (cs : List Char) :
    Alongside g (g.flags cs) (g.aloud.flags cs) := by
  induction cs generalizing g with
  | nil => exact .kept rfl
  | cons c cs ih => exact .andThen ih (alongside_flag g (longName c))

theorem alongside_limit (g : Given) (name : String) (value : List Char) :
    Alongside g (g.limit name value) (g.aloud.limit name value) := by
  obtain ⟨_, _, _, maxCallDepth, maxNestingDepth, _⟩ := g
  unfold limit
  split
  · cases maxCallDepth <;> cases limit? Config.callDepthCeiling value
    case none.some => exact .kept rfl
    all_goals exact .stopped fun _ => Request.noConfusion
  · split
    · cases maxNestingDepth <;> cases limit? Config.nestingDepthCeiling value
      case none.some => exact .kept rfl
      all_goals exact .stopped fun _ => Request.noConfusion
    · exact .stopped fun _ => Request.noConfusion

theorem alongside_positional (g : Given) (text : String) :
    Alongside g (g.positional text) (g.aloud.positional text) := by
  obtain ⟨_, _, _, _, _, contents⟩ := g
  cases contents with
  | none => exact .kept rfl
  | some _ => exact .stopped fun _ => Request.noConfusion

theorem alongside_positionals (g : Given) (args : List String) :
    Alongside g (g.positionals args) (g.aloud.positionals args) := by
  induction args generalizing g with
  | nil => exact .kept rfl
  | cons arg args ih => exact .andThen ih (alongside_positional g arg)

theorem alongside_arguments (args : List String) (g : Given) :
    Alongside g (g.arguments args) (g.aloud.arguments args) := by
  match args with
  | [] => exact .kept rfl
  | arg :: args =>
    unfold arguments
    split
    · exact alongside_positionals g args
    · dsimp only
      split
      · exact .andThen (alongside_arguments args) (alongside_limit g _ _)
      · split
        · split
          · exact .stopped fun _ => Request.noConfusion
          · split
            · exact .stopped fun _ => Request.noConfusion
            · exact .andThen (alongside_arguments _) (alongside_limit g _ _)
        · exact .andThen (alongside_arguments args) (alongside_flag g _)
    · exact .andThen (alongside_arguments args) (alongside_flags g _)
    · exact .andThen (alongside_arguments args) (alongside_positional g arg)

theorem request_aloud {g : Given} {options : Options} (h : g.request = .run options) :
    options.verbose = g.verbose ∧ g.aloud.request = .run options.aloud := by
  unfold request at h
  split at h
  · cases h
  · rename_i contents hcontents
    cases h
    refine ⟨rfl, ?_⟩
    simp only [request, aloud, Options.aloud, hcontents]

end Given

/-- A verbose run is asked for by one more flag. -/
theorem Request.ofArguments_verbose {args : List String} {options : Options}
    (h : Request.ofArguments args = .run options) (hquiet : options.verbose = false) :
    Request.ofArguments ("--verbose" :: args) = .run options.aloud := by
  have hverbose : Given.nothing.flag "verbose" = .ok Given.nothing.aloud := rfl
  have hflag : Given.nothing.arguments ("--verbose" :: args) =
      Given.nothing.aloud.arguments args := by
    simp [Given.arguments, Given.isLimit, hverbose]
  unfold Request.ofArguments at h ⊢
  rw [hflag]
  have halong := Given.alongside_arguments args .nothing
  generalize Given.nothing.arguments args = r at h halong
  generalize Given.nothing.aloud.arguments args = r' at halong
  cases halong with
  | kept _ => exact (Given.request_aloud h).2
  | raised hverbose =>
    rw [(Given.request_aloud h).1, hverbose] at hquiet
    cases hquiet
  | stopped hrequest => exact absurd h (hrequest options)

/-- Arguments that ask for a plain run ask with one more flag for the verbose run. -/
theorem execute_verbose {m : Type → Type} [Monad m] (console : Console m) (fuel : Nat)
    {args : List String} {options : Options} (h : Request.ofArguments args = .run options)
    (hquiet : options.verbose = false) :
    execute console fuel args = carryOut console fuel options ∧
      execute console fuel ("--verbose" :: args) = carryOut console fuel options.aloud := by
  unfold execute
  rw [h, Request.ofArguments_verbose h hquiet]
  exact ⟨rfl, rfl⟩

end IntLang.CommandLine
