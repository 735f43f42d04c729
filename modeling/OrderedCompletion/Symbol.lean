/-! Function symbols and the table that names them. -/

namespace OrderedCompletion

/-- A function or constant symbol, known by its place in a symbol table. -/
structure Symbol where
  index : Nat
  deriving DecidableEq, Repr

/-- Names in the order in which they were first met, each of them once. -/
structure SymbolTable where
  names : List String
  nodup : names.Nodup

namespace SymbolTable

def empty : SymbolTable := ⟨[], List.nodup_nil⟩

instance : Inhabited SymbolTable := ⟨empty⟩

def size (table : SymbolTable) : Nat := table.names.length

def isEmpty (table : SymbolTable) : Bool := table.names.isEmpty

/-- The name of a symbol, if this table has handed the symbol out. -/
def name? (table : SymbolTable) (f : Symbol) : Option String := table.names[f.index]?

def contains (table : SymbolTable) (name : String) : Bool := name ∈ table.names

/-- The symbol of a name that is already in the table. -/
def find? (table : SymbolTable) (name : String) : Option Symbol :=
  if name ∈ table.names then some ⟨table.names.idxOf name⟩ else none

/-- Appends a name that the table does not hold yet. -/
def push (table : SymbolTable) (name : String) (fresh : name ∉ table.names) : SymbolTable where
  names := table.names ++ [name]
  nodup := by
    refine List.nodup_append.2 ⟨table.nodup, by simp, fun a ha b hb => ?_⟩
    obtain rfl := List.mem_singleton.1 hb
    exact fun h => fresh (h ▸ ha)

/-- The symbol of a name, which enters the table if it is new. -/
def intern (table : SymbolTable) (name : String) : Symbol × SymbolTable :=
  if h : name ∈ table.names then (⟨table.names.idxOf name⟩, table)
  else (⟨table.size⟩, table.push name h)

/-- Interns names from left to right. -/
def internAll (table : SymbolTable) : List String → List Symbol × SymbolTable
  | [] => ([], table)
  | name :: names =>
    let (f, table) := table.intern name
    let (fs, table) := table.internAll names
    (f :: fs, table)

end SymbolTable
end OrderedCompletion
