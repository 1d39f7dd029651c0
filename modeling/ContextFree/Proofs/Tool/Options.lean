import ContextFree.Tool.Options

/-!
# Adding options to a command

Options that take no value may be given in front of any arguments. What they ask for is added to
what the arguments ask for.
-/

namespace ContextFree

namespace Tool

/-- An option that asks for more to be shown or reported. -/
inductive Flag where
  | verbose
  | cnf
  | table

namespace Flag

/-- The argument that the option is. -/
def arg : Flag → String
  | verbose => "-v"
  | cnf => "--cnf"
  | table => "--table"

/-- What the option asks for. -/
def setting : Flag → Setting
  | verbose => .verbose
  | cnf => .showCnf
  | table => .showChart

/-- Whether the option may be given beside what is asked for already. More detail may be asked for
any number of times, anything else only once. -/
def IsNew : Flag → Options → Prop
  | verbose, _ => True
  | cnf, options => options.showCnf = false
  | table, options => options.showChart = false

def set : Flag → Options → Options
  | verbose, options => { options with verbosity := options.verbosity + 1 }
  | cnf, options => { options with showCnf := true }
  | table, options => { options with showChart := true }

end Flag

namespace Command

def set (flag : Flag) (command : Command) : Command :=
  { command with options := flag.set command.options }

/-- That a program reads its arguments such that an option may be put in front of them. -/
def TakesFlags (read? : List String → Option Command) : Prop :=
  ∀ flag args command, read? args = some command → Flag.IsNew flag command.options →
    read? (flag.arg :: args) = some (command.set flag)

theorem settings_cons (flag : Flag) (args : List String) :
    Setting.ofArgs? false (flag.arg :: args) =
      (Setting.ofArgs? false args).map (flag.setting :: ·) := by
  rw [Option.map_eq_bind]
  cases flag <;> rfl

theorem ofSettings?_cons (flag : Flag) {settings : List Setting} {command : Command}
    (h : ofSettings? settings = some command) (hnew : flag.IsNew command.options) :
    ofSettings? (flag.setting :: settings) = some (command.set flag) := by
  have hmethods : (flag.setting :: settings).filterMap Setting.method? =
      settings.filterMap Setting.method? := by cases flag <;> rfl
  have hoperands : (flag.setting :: settings).filterMap Setting.operand? =
      settings.filterMap Setting.operand? := by cases flag <;> rfl
  rw [ofSettings?] at h ⊢
  rw [hmethods, hoperands]
  split at h
  · next honce =>
    split at h
    · next path input _ =>
      obtain rfl := Option.some.inj h
      rw [if_pos]
      · cases flag <;> simp [set, Flag.set, Flag.setting]
      · cases flag with
        | verbose => simpa [Flag.setting] using honce
        | cnf | table =>
          have hnone := List.count_eq_zero.mpr (by simpa [Flag.IsNew] using hnew)
          simp [Flag.setting, hnone, honce]
    · cases h
  · cases h

theorem takesFlags_ofArgs? : TakesFlags ofArgs? := by
  intro flag args command h hnew
  obtain ⟨settings, hsettings, hcommand⟩ := Option.bind_eq_some_iff.mp h
  rw [ofArgs?, settings_cons, hsettings]
  exact ofSettings?_cons flag hcommand hnew

end Command

end Tool

end ContextFree
