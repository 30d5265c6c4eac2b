import AffineFlow.Memory
import AffineFlow.Variable

/-!
# The supply of variables

Variables are numbered in the order in which they are minted. Whatever has a
referent gets one variable for the life of the supply, which nothing else has;
temporaries have no referent. A wanted name is granted as it is if no variable
has it, and otherwise with the number of the variable appended as often as it
takes, so that no two variables are called the same.
-/
namespace AffineFlow

open Ssa

/-- What a variable stands for. -/
inductive Referent where
  /-- An instruction result or an argument of the function. -/
  | value (func : FuncId) (v : Value)
  | global (id : GlobalId)
  | func (id : FuncId)
  | cell (c : Cell)
  deriving DecidableEq, Repr

structure VarSupply where
  /-- The names of the variables by number. -/
  names : List String := []
  bound : List (Referent × Var) := []
  bound_lt : ∀ p ∈ bound, p.2.id < names.length := by exact List.forall_mem_nil _
  bound_nodup : (bound.map (·.2)).Nodup := by exact List.nodup_nil

namespace VarSupply

variable (s : VarSupply)

/-- The number of variables minted so far. -/
def size : Nat := s.names.length

def isEmpty : Bool := s.size == 0

/-- Appends `suffix` to the name until it is new; at most `fuel` of the names met are not. -/
def distinguish (taken : List String) (suffix : String) : Nat → String → String
  | 0, name => name
  | fuel + 1, name =>
      if name ∈ taken then distinguish taken suffix fuel (name ++ suffix) else name

/-- The name that the next variable gets if it asks for `name`. -/
def grantedName (name : String) : String :=
  distinguish s.names ("." ++ Nat.repr s.size) (s.size + 1) name

/-- The name that the next variable asks for if nothing else is wanted. -/
def defaultName : String := "_" ++ Nat.repr s.size

/-- The next variable. -/
def next : Var := ⟨s.size⟩

/-- The supply after minting `next`. -/
def mint (name : String) : VarSupply where
  names := s.names ++ [s.grantedName name]
  bound := s.bound
  bound_lt := fun p hp => by
    rw [List.length_append]
    exact Nat.lt_of_lt_of_le (s.bound_lt p hp) (Nat.le_add_right _ _)
  bound_nodup := s.bound_nodup

/-- Mints a temporary, which is `next`. -/
def mintTemporary : VarSupply := s.mint s.defaultName

def find? (r : Referent) : Option Var := s.bound.lookup r

/-- Mints a variable for a referent that has none, and gives it to the referent. -/
def mintFor (r : Referent) (name : Option String) : VarSupply where
  names := (s.mint (name.getD s.defaultName)).names
  bound := (r, s.next) :: s.bound
  bound_lt := by
    refine List.forall_mem_cons.2 ⟨?_, (s.mint (name.getD s.defaultName)).bound_lt⟩
    simp [mint, next, size]
  bound_nodup := by
    refine List.nodup_cons.2 ⟨fun hm => ?_, s.bound_nodup⟩
    obtain ⟨p, hp, he⟩ := List.mem_map.1 hm
    have hid : p.2.id = s.names.length := congrArg Var.id he
    exact absurd (s.bound_lt p hp) (by rw [hid]; exact Nat.lt_irrefl _)

/-- The variable of the referent. The name counts only if the variable is new. -/
def request (r : Referent) (name : Option String) : Var × VarSupply :=
  match s.find? r with
  | some v => (v, s)
  | none => (s.next, s.mintFor r name)

/-- How the supply calls its variables. -/
def naming : Naming := fun v => s.names[v.id]?.getD ""

end VarSupply

end AffineFlow
