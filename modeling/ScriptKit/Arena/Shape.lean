import ScriptKit.Arena.Basic

namespace ScriptKit.Arena

def left? (a : Arena) (id : NodeId) : Option NodeId := a.child? id 0

def right? (a : Arena) (id : NodeId) : Option NodeId := a.child? id 1

/-- The condition of an if or while statement. -/
def test? (a : Arena) (id : NodeId) : Option NodeId := a.child? id 0

def consequent? (a : Arena) (id : NodeId) : Option NodeId := a.child? id 1

/-- The else branch of an if statement. -/
def alternate? (a : Arena) (id : NodeId) : Option NodeId := a.child? id 2

/-- The block of a function or class. -/
def body? (a : Arena) (id : NodeId) : Option NodeId := (a.children id).getLast?

/-- The parameter names of a function. -/
def parameters (a : Arena) (id : NodeId) : List String :=
  (a.child? id 0).elim [] fun list => (a.children list).map a.text

end ScriptKit.Arena
