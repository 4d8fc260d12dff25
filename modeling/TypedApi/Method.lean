/-! Request methods of HTTP, in the order in which documents list them. -/
namespace TypedApi

inductive Method where
  | get | put | post | delete | options | head | patch | trace
deriving DecidableEq, Repr

namespace Method

def all : List Method := [.get, .put, .post, .delete, .options, .head, .patch, .trace]

theorem mem_all (m : Method) : m ∈ all := by cases m <;> decide

/-- The name on the wire. -/
def name : Method → String
  | .get => "GET"
  | .put => "PUT"
  | .post => "POST"
  | .delete => "DELETE"
  | .options => "OPTIONS"
  | .head => "HEAD"
  | .patch => "PATCH"
  | .trace => "TRACE"

/-- The key of the method in a path item. -/
def key : Method → String
  | .get => "get"
  | .put => "put"
  | .post => "post"
  | .delete => "delete"
  | .options => "options"
  | .head => "head"
  | .patch => "patch"
  | .trace => "trace"

def named? (s : String) : Option Method := all.find? (·.name == s)

def keyed? (s : String) : Option Method := all.find? (·.key == s)

theorem named?_name (m : Method) : named? m.name = some m := by cases m <;> decide

theorem keyed?_key (m : Method) : keyed? m.key = some m := by cases m <;> decide

end Method
end TypedApi
