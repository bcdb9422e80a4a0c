import GzLang.World
import GzLang.Value.Display

/-!
# Sample programs

The programs that the demonstrations work on, and how a demonstration shows a value.
-/

namespace GzLang.Demo

def fibonacci : String :=
  "\n    simula fibonacci n\n        kung n <= 1\n            balik n\n" ++
  "        balik fibonacci(n-1) + fibonacci(n-2)\n\n" ++
  "    simula main\n        para i 0 10\n            sulat fibonacci(i)\n        balik 0\n    "

def greeting : String :=
  "\n    simula main\n        sulat \"Hello, World!\"\n        balik 0\n    "

def misspelledGreeting : String :=
  "\n    simula main() \x7b\n        sulat(\"Hello, World!\");\n        balik 0;\n    \x7d\n    "

def increment : String :=
  "\n    simula main\n        x = 10\n        x = x + 1\n        balik 0\n    "

/-- Has something for each simple technique of the optimizer. -/
def wasteful : String :=
  "\n    simula fibonacci n\n        kung n == 0\n            balik 0\n" ++
  "        kung n == 1\n            balik 1\n        \n" ++
  "        a = 0\n        b = 1\n        para i 2 n\n            temp = a\n            a = b\n" ++
  "            b = temp + b\n        \n        balik b\n    \n" ++
  "    simula main\n        x = 5\n        x = x + 1\n        \n" ++
  "        y = 10\n        z = 20\n        result = y + z\n        \n" ++
  "        kung result == tama\n            sulat \"True result\"\n        \n" ++
  "        sulat fibonacci(10)\n        balik 0\n    "

def tell (title : String) (v : Value) : Job Unit := do
  Job.printLine (title ++ (← v.display))

end GzLang.Demo
