/-!
# Catalogs

Values kept under names, one under each, in the order of the names' bytes.
-/

namespace Converge

structure Catalog (α : Type) where
  entries : List (String × α)
deriving Repr, DecidableEq

namespace Catalog

variable {α : Type}

def empty : Catalog α := ⟨[]⟩

/-- Puts a value under a name in an ordered list, in place of the one that was there. -/
def insertEntry (name : String) (a : α) : List (String × α) → List (String × α)
  | [] => [(name, a)]
  | (n, b) :: rest =>
      if name < n then (name, a) :: (n, b) :: rest
      else if name = n then (name, a) :: rest
      else (n, b) :: insertEntry name a rest

/-- Puts a value under a name, in place of the one that was there. -/
def insert (c : Catalog α) (name : String) (a : α) : Catalog α :=
  ⟨insertEntry name a c.entries⟩

/-- The catalog of a list; of two values under one name the later one stays. -/
def ofList (pairs : List (String × α)) : Catalog α :=
  pairs.foldl (fun c (name, a) => c.insert name a) empty

def find? (c : Catalog α) (name : String) : Option α := c.entries.lookup name

/-- The names, in the order of their bytes. -/
def names (c : Catalog α) : List String := c.entries.map Prod.fst

def size (c : Catalog α) : Nat := c.entries.length

def isEmpty (c : Catalog α) : Bool := c.entries.isEmpty

@[simp] theorem entries_empty : (empty : Catalog α).entries = [] := rfl
@[simp] theorem ofList_nil : ofList ([] : List (String × α)) = empty := rfl

end Catalog

end Converge
