namespace PulseSyntax.Path

def parts (path : String) : List String := (path.toList.splitOn '/').map String.ofList

def names (path : String) : List String :=
  (parts path).filter fun part => part != "" && part != "."

def fileName? (path : String) : Option String := (names path).getLast?.filter (· != "..")

def nameExtension? (name : String) : Option String :=
  match (name.toList.splitOn '.').reverse with
  | last :: before :: earlier =>
    if earlier.isEmpty && before.isEmpty then none else some (String.ofList last)
  | _ => none

def extension? (path : String) : Option String := (fileName? path).bind nameExtension?

def isComponent (path : String) : Bool := extension? path == some "pulse"

def isLongName (name : String) : Bool := 255 < name.utf8ByteSize

def isLong (path : String) : Bool := 4096 ≤ path.utf8ByteSize

def join (directory name : String) : String :=
  if directory.endsWith "/" then directory ++ name else directory ++ "/" ++ name

end PulseSyntax.Path

namespace PulseSyntax

inductive ReadError where
  | missing | notDirectory | isDirectory | longName | denied | notText
  | other (message : String)
deriving DecidableEq, Repr

def ReadError.message : ReadError → String
  | missing => "No such file or directory (os error 2)"
  | notDirectory => "Not a directory (os error 20)"
  | isDirectory => "Is a directory (os error 21)"
  | longName => "File name too long (os error 36)"
  | denied => "Permission denied (os error 13)"
  | notText => "stream did not contain valid UTF-8"
  | other message => message

/-- A file with its content, or a directory with its entries in the order of their names. -/
inductive FileTree where
  | file (content : Except ReadError String)
  | directory (entries : List (String × FileTree))

namespace FileTree

def read (path : String) (tree : FileTree) : Except ReadError String :=
  if Path.isLong path then .error .longName
  else match tree with
    | file content => content
    | directory _ => .error .isDirectory

mutual

/-- A tree and all it holds, each with its path: a directory comes before its entries. One whose
    path is too long cannot be listed. -/
def walk (path : String) : FileTree → List (String × FileTree)
  | file content => [(path, file content)]
  | directory entries =>
    (path, directory entries) :: if Path.isLong path then [] else walkEntries path entries

def walkEntries (path : String) : List (String × FileTree) → List (String × FileTree)
  | [] => []
  | (name, tree) :: entries => walk (Path.join path name) tree ++ walkEntries path entries

end

def child? (entries : List (String × FileTree)) (name : String) : Option FileTree :=
  entries.lookup name

def putEntry (name : String) (tree : FileTree) :
    List (String × FileTree) → List (String × FileTree)
  | [] => [(name, tree)]
  | (other, old) :: entries =>
    if name < other then (name, tree) :: (other, old) :: entries
    else if name == other then (name, tree) :: entries
    else (other, old) :: putEntry name tree entries

/-- The entries of a directory; a file has none. -/
def entries : FileTree → List (String × FileTree)
  | file _ => []
  | directory entries => entries

def insert (content : String) : List String → FileTree → FileTree
  | [], tree => tree
  | [name], tree => directory (putEntry name (file (.ok content)) tree.entries)
  | name :: rest, tree =>
    let below := (child? tree.entries name).getD (directory [])
    directory (putEntry name (insert content rest below) tree.entries)

def ofFiles (files : List (String × String)) : FileTree :=
  files.foldl (fun tree (path, content) => tree.insert content (Path.names path)) (directory [])

/-- What a path from a directory on leads to, given the directories above it. Of what lies beyond
    them only the directories further up are known. -/
def descend (above : List FileTree) (tree : FileTree) : List String → Except ReadError FileTree
  | [] => .ok tree
  | part :: rest =>
    match tree with
    | file _ => .error .notDirectory
    | directory entries =>
      if part == "" || part == "." then descend above tree rest
      else if part == ".." then
        match above with
        | [] => descend [] (directory []) rest
        | parent :: above => descend above parent rest
      else if Path.isLongName part then .error .longName
      else match child? entries part with
        | none => .error .missing
        | some next => descend (tree :: above) next rest

/-- What a path leads to from a directory, or from the root where it starts with a slash. -/
def find (tree : FileTree) (path : String) : Except ReadError FileTree :=
  if Path.isLong path then .error .longName
  else descend [] (if path.startsWith "/" then directory [] else tree) (Path.parts path)

end FileTree

end PulseSyntax
